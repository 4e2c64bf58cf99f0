import Arche.Syntax.Shape

/-!
# What an action does above its items

An action of the parser only looks at the items it has made itself, and those made since a
checkpoint it was given. So it does the same above any other list of items (`Local`). `Local`
compares two actions, the same function of the parser with two circles, and says what
holds of the items on the way: every binary node made has its operators in order, the leaves
are those of the tokens consumed, and the first item does not become a binary node.

`d` is the recursion counter between two calls, where it is to be kept.
-/

namespace Arche.Syntax

open P Arche.Syntax.Parser MoveLemmas

/-! ## Binary nodes -/

/-- The operator of a binary node stands behind its left operand. -/
def Elem.operator : Elem → Option TokenKind
  | .node .binaryExpr (_ :: .token op _ _ _ _ :: _) => some op
  | _ => none

/-- The left operand is no looser binary node, the right operand, behind the comments, only a
tighter one. -/
def operandsInOrder : List Elem → Bool
  | left :: .token op _ _ _ _ :: rest =>
    decide (0 < binopPrec op) && left.operator.all (fun o => decide (binopPrec op ≤ binopPrec o)) &&
      match rest.dropWhile isComment with
      | right :: _ => right.operator.all fun o => decide (binopPrec op < binopPrec o)
      | [] => false
  | _ => false

mutual

/-- Every binary node in the tree has its operands in order. -/
def Elem.climbed : Elem → Bool
  | .token _ _ _ _ _ => true
  | .node kind children =>
    climbedAll children && (kind != .binaryExpr || operandsInOrder children)

def climbedAll : List Elem → Bool
  | [] => true
  | e :: es => e.climbed && climbedAll es

end

theorem climbedAll_append (es fs : List Elem) :
    climbedAll (es ++ fs) = (climbedAll es && climbedAll fs) := by
  induction es with
  | nil => simp [climbedAll]
  | cons e es ih => simp [climbedAll, ih, Bool.and_assoc]

/-- The node kinds other than `SN_BINARY_EXPR`. -/
@[reducible]
def isOtherKind : SyntaxNodeKind → Bool
  | .binaryExpr => false
  | _ => true

theorem climbed_node {kind : SyntaxNodeKind} (hk : isOtherKind kind = true) {es : List Elem} :
    (Elem.node kind es).climbed = climbedAll es := by
  have hne : (kind != .binaryExpr) = true := by cases kind <;> first | rfl | cases hk
  simp [Elem.climbed, hne]

/-- The items start with something that is no binary node. -/
def Starts (xs : List Elem) : Prop := ∃ x rest, xs = x :: rest ∧ ∀ cs, x ≠ .node .binaryExpr cs

theorem Starts.append {xs : List Elem} (h : Starts xs) (ys : List Elem) : Starts (xs ++ ys) := by
  obtain ⟨x, rest, rfl, hx⟩ := h
  exact ⟨x, rest ++ ys, rfl, hx⟩

/-! ## Consumed tokens -/

/-- The leaves of the tokens other than error tokens. -/
def leavesRead (ts : List Token) : List Leaf := (ts.filter (·.kind != .error)).map Token.leaf32

theorem leavesRead_append (ts us : List Token) :
    leavesRead (ts ++ us) = leavesRead ts ++ leavesRead us := by
  simp [leavesRead]

/-- The way from `s` to `t` consumed tokens whose leaves are `ls`. An error token makes no leaf;
other leaves are lost at a loop cap only, which takes `cap` tokens and sets `had_error`. -/
structure Consumed (cap : Nat) (s t : Parser) (ls : List Leaf) : Prop where
  flagged : s.hadError = true → t.hadError = true
  tokens : ∃ ts, s.pending = ts ++ t.pending ∧ ls.Sublist (ts.map Token.leaf32) ∧
    (ls = leavesRead ts ∨ cap ≤ ts.length ∧ t.hadError = true)

theorem leavesRead_sublist (ts : List Token) : (leavesRead ts).Sublist (ts.map Token.leaf32) :=
  List.filter_sublist.map _

theorem Consumed.none {cap : Nat} {s t : Parser} (hflag : s.hadError = true → t.hadError = true)
    (h : t.pending = s.pending) : Consumed cap s t [] :=
  ⟨hflag, [], by simp [h], List.Sublist.refl [], Or.inl rfl⟩

theorem Consumed.trans {cap : Nat} {s t u : Parser} {ls ms : List Leaf} (h : Consumed cap s t ls)
    (h' : Consumed cap t u ms) : Consumed cap s u (ls ++ ms) := by
  obtain ⟨hflag, ts, hs, hsub, hts⟩ := h
  obtain ⟨hflag', us, ht, hsub', hus⟩ := h'
  refine ⟨hflag' ∘ hflag, ts ++ us, by rw [hs, ht, List.append_assoc], ?_, ?_⟩
  · rw [List.map_append]
    exact hsub.append hsub'
  · rw [List.length_append]
    rcases hts with rfl | ⟨hlen, ht⟩
    · rcases hus with rfl | ⟨hlen, hu⟩
      · exact Or.inl (leavesRead_append ts us).symm
      · exact Or.inr ⟨by omega, hu⟩
    · exact Or.inr ⟨by omega, hflag' ht⟩

/-- Going past tokens that make the leaves they should. -/
theorem Consumed.exact {cap : Nat} {s t : Parser} {ts : List Token}
    (hflag : s.hadError = true → t.hadError = true) (h : s.pending = ts ++ t.pending) :
    Consumed cap s t (leavesRead ts) :=
  ⟨hflag, ts, h, leavesRead_sublist ts, Or.inl rfl⟩

/-! ## Other items -/

namespace Parser

/-- The same state with other items. -/
def withItems (s : Parser) (items : List Elem) : Parser := { s with items := items }

/-- The same state without items. -/
def bare (s : Parser) : Parser := s.withItems []

@[simp] theorem withItems_items (s : Parser) (xs : List Elem) : (s.withItems xs).items = xs := rfl

@[simp] theorem withItems_self (s : Parser) : s.withItems s.items = s := rfl

@[simp] theorem withItems_withItems (s : Parser) (xs ys : List Elem) :
    (s.withItems xs).withItems ys = s.withItems ys := rfl

@[simp] theorem withItems_current (s : Parser) (xs : List Elem) :
    (s.withItems xs).current = s.current := rfl

@[simp] theorem withItems_unread (s : Parser) (xs : List Elem) :
    (s.withItems xs).unread = s.unread := rfl

@[simp] theorem withItems_depth (s : Parser) (xs : List Elem) :
    (s.withItems xs).recursionDepth = s.recursionDepth := rfl

@[simp] theorem withItems_bare (s : Parser) (xs : List Elem) : (s.withItems xs).bare = s.bare := rfl

end Parser

/-- From `s` on, `f` appends `new`, whatever the items are. -/
structure Appends (cap : Nat) (f : Parser → Parser) (s : Parser) (new : List Elem) : Prop where
  run : ∀ xs, f (s.withItems xs) = (f s).withItems (xs ++ new)
  depth : (f s).recursionDepth = s.recursionDepth
  climbed : climbedAll new = true
  consumed : Consumed cap s (f s) (leavesOf new)

theorem Appends.items {cap : Nat} {f : Parser → Parser} {s : Parser} {new : List Elem}
    (h : Appends cap f s new) : (f s).items = s.items ++ new :=
  congrArg Parser.items (h.run s.items)

/-- A change that concerns neither the items nor the text. -/
theorem appends_still {cap : Nat} {f : Parser → Parser} {s : Parser}
    (hrun : ∀ xs, f (s.withItems xs) = (f s).withItems xs)
    (hdepth : (f s).recursionDepth = s.recursionDepth)
    (hflag : s.hadError = true → (f s).hadError = true) (hpend : (f s).pending = s.pending) :
    Appends cap f s [] :=
  ⟨fun xs => by rw [hrun, List.append_nil], hdepth, rfl, .none hflag hpend⟩

theorem Appends.comp {cap : Nat} {f g : Parser → Parser} {s : Parser} {new new' : List Elem}
    (hf : Appends cap f s new) (hg : Appends cap g (f s) new') :
    Appends cap (fun s => g (f s)) s (new ++ new') where
  run := fun xs => by rw [hf.run, hg.run, List.append_assoc]
  depth := hg.depth.trans hf.depth
  climbed := by rw [climbedAll_append, hf.climbed, hg.climbed]; rfl
  consumed := by
    rw [AccountLemmas.leavesOf_append]
    exact hf.consumed.trans hg.consumed

/-- The leaf of a token, as an item. -/
def leafElem (t : Token) : Elem :=
  .token t.kind (t.start % 4294967296) (t.length % 4294967296) t.line t.column

theorem leavesOf_leafElem (t : Token) : leavesOf [leafElem t] = [t.leaf32] := rfl

/-- `cut` drops the token in hand. -/
theorem cut_pending {s : Parser} (h : s.current.kind ≠ .eof) :
    s.pending = [s.current] ++ s.cut.pending := by
  rw [AccountLemmas.pending_of_ne h]
  simp [pending, cut]

theorem appends_cut {s : Parser} (h : s.current.kind ≠ .eof) : Appends 1 cut s [] where
  run := fun xs => by rw [List.append_nil]; rfl
  depth := rfl
  climbed := rfl
  consumed := ⟨fun _ => rfl, [s.current], cut_pending h, List.nil_sublist _,
    Or.inr ⟨Nat.le_refl _, rfl⟩⟩

theorem Appends.mono {cap cap' : Nat} {f : Parser → Parser} {s : Parser} {new : List Elem}
    (h : Appends cap f s new) (hle : cap' ≤ cap) : Appends cap' f s new := by
  obtain ⟨hflag, ts, hs, hsub, hts⟩ := h.consumed
  exact ⟨h.run, h.depth, h.climbed, hflag, ts, hs, hsub,
    hts.imp_right fun hlen => ⟨by omega, hlen.2⟩⟩

/-- Two parts of a way: a cap in the second one counts the tokens of the first one too. -/
theorem Appends.comp_count {cap : Nat} {f g : Parser → Parser} {s : Parser} {new new' : List Elem}
    {ts : List Token} (hf : Appends (cap + 1) f s new) (hpend : s.pending = ts ++ (f s).pending)
    (hts : ts ≠ []) (hg : Appends cap g (f s) new') :
    Appends (cap + 1) (fun s => g (f s)) s (new ++ new') where
  run := (Appends.comp (hf.mono (Nat.le_succ cap)) hg).run
  depth := hg.depth.trans hf.depth
  climbed := by rw [climbedAll_append, hf.climbed, hg.climbed]; rfl
  consumed := by
    obtain ⟨hflag, us, hs, hsub, hus⟩ := hf.consumed
    obtain ⟨hflag', vs, ht, hsub', hvs⟩ := hg.consumed
    have hus_eq : us = ts := List.append_cancel_right (hs.symm.trans hpend)
    subst hus_eq
    refine ⟨hflag' ∘ hflag, us ++ vs, by rw [hs, ht, List.append_assoc], ?_, ?_⟩
    · rw [AccountLemmas.leavesOf_append, List.map_append]
      exact hsub.append hsub'
    · have hpos : 0 < us.length := List.length_pos_iff.mpr hts
      rw [List.length_append]
      rcases hus with heq | ⟨hlen, hu⟩
      · rcases hvs with heq' | ⟨hlen, hv⟩
        · left
          rw [AccountLemmas.leavesOf_append, heq, heq', leavesRead_append]
        · exact Or.inr ⟨by omega, hv⟩
      · exact Or.inr ⟨by omega, hflag' hu⟩

theorem Appends.congr {cap : Nat} {f g : Parser → Parser} {s : Parser} {new : List Elem}
    (h : Appends cap f s new) (heq : ∀ xs, g (s.withItems xs) = f (s.withItems xs)) :
    Appends cap g s new := by
  have hs : g s = f s := heq s.items
  refine ⟨fun xs => ?_, ?_, h.climbed, ?_⟩
  · rw [heq, hs, h.run]
  · rw [hs, h.depth]
  · rw [hs]
    exact h.consumed

/-- Nothing to do. -/
theorem appends_id (cap : Nat) (s : Parser) : Appends cap (fun s => s) s [] :=
  appends_still (fun _ => rfl) rfl id rfl

/-- The token in hand becomes a leaf. -/
theorem appends_emit {cap : Nat} {s : Parser} (hne : s.current.kind ≠ .eof)
    (herr : s.current.kind ≠ .error) :
    Appends cap (fun s => (s.emit s.current).next) s [leafElem s.current] where
  run := fun _ => rfl
  depth := rfl
  climbed := rfl
  consumed := by
    have hpend : s.pending = [s.current] ++ (s.emit s.current).next.pending := by
      rw [AccountLemmas.pending_next, AccountLemmas.pending_of_ne hne]
      rfl
    have hread : leavesRead [s.current] = leavesOf [leafElem s.current] := by
      simp [leavesRead, herr, leavesOf_leafElem]
    rw [← hread]
    exact .exact id hpend

theorem skipComments_appends (n : Nat) (s : Parser) :
    ∃ new, Appends n (skipComments n) s new := by
  induction n generalizing s with
  | zero =>
    by_cases hc : s.current.kind = .comment
    · refine ⟨[], ((appends_cut (by rw [hc]; decide)).mono (Nat.zero_le 1)).congr fun xs => ?_⟩
      unfold skipComments
      exact if_pos hc
    · refine ⟨[], (appends_id 0 s).congr fun xs => ?_⟩
      unfold skipComments
      exact if_neg hc
  | succ n ih =>
    by_cases hc : s.current.kind = .comment
    · have hne : s.current.kind ≠ .eof := by rw [hc]; decide
      obtain ⟨new, hnew⟩ := ih (s.emit s.current).next
      have hemit : Appends (n + 1) (fun s => (s.emit s.current).next) s [leafElem s.current] :=
        appends_emit hne (by rw [hc]; decide)
      have hpend : s.pending = [s.current] ++ (s.emit s.current).next.pending := by
        rw [AccountLemmas.pending_next, AccountLemmas.pending_of_ne hne]
        rfl
      refine ⟨_, (hemit.comp_count hpend (by simp) hnew).congr fun xs => ?_⟩
      conv => lhs; unfold skipComments
      exact if_pos hc
    · refine ⟨[], (appends_id (n + 1) s).congr fun xs => ?_⟩
      unfold skipComments
      exact if_neg hc

theorem take_appends (cap : Nat) (s : Parser) :
    ∃ new, Appends cap (fun s => s.take.next) s new := by
  by_cases hk : s.current.kind ≠ .eof ∧ s.current.kind ≠ .error
  · have hemit : Appends cap (fun s => (s.emit s.current).next) s [leafElem s.current] :=
      appends_emit hk.1 hk.2
    have htake : s.take.next.pending = (s.emit s.current).next.pending := by
      unfold take
      rw [if_pos hk]
      rfl
    have hflag : s.take.next.hadError = s.hadError := by
      unfold take
      rw [if_pos hk]
      rfl
    obtain ⟨-, ts, hts, hsub, hread⟩ := hemit.consumed
    refine ⟨[leafElem s.current], fun xs => ?_, ?_, rfl, fun hs => hflag.trans hs, ts,
      by rw [hts, htake], hsub, hread.imp_right fun hlen => ⟨hlen.1, hflag.trans hlen.2⟩⟩
    · have htake' : (s.withItems xs).take = { (s.withItems xs).emit s.current with
          previous := s.current } := if_pos hk
      have htake : s.take = { s.emit s.current with previous := s.current } := if_pos hk
      rw [htake, htake']
      rfl
    · unfold take
      rw [if_pos hk]
      rfl
  · have htake : ∀ xs, (s.withItems xs).take = { s.withItems xs with previous := s.current } :=
      fun _ => if_neg hk
    have hs : s.take = { s with previous := s.current } := htake s.items
    refine ⟨[], fun xs => ?_, by rw [hs]; rfl, rfl, ?_⟩
    · rw [htake, hs, List.append_nil]
      rfl
    · have hpend : s.take.next.pending = s.lexer.tokens := by
        rw [AccountLemmas.pending_next, hs]
      have hflag : s.hadError = true → s.take.next.hadError = true := by
        rw [hs]
        exact id
      by_cases hne : s.current.kind = .eof
      · exact .none hflag (by rw [hpend]; simp [pending, hne])
      · have herr : s.current.kind = .error := by
          by_contra herr
          exact hk ⟨hne, herr⟩
        have hread : leavesRead [s.current] = leavesOf [] := by simp [leavesRead, herr, leavesOf]
        rw [← hread]
        exact .exact hflag (by rw [hpend, AccountLemmas.pending_of_ne hne]; rfl)

theorem advance_appends (s : Parser) : ∃ new, Appends 1000 advance s new := by
  have hcap : maxCommentLoop = 1000 := by unfold maxCommentLoop; rfl
  obtain ⟨took, htook⟩ := take_appends 1000 s
  obtain ⟨cs, hcs⟩ := skipComments_appends maxCommentLoop s.take.next
  rw [hcap] at hcs
  have hflag : ∀ t : Parser, Appends 1000 flagError t [] := by
    intro t
    by_cases ht : t.current.kind = .error
    · have hrun : ∀ xs, (t.withItems xs).flagError = { t.withItems xs with hadError := true } :=
        fun _ => if_pos ht
      refine appends_still (fun xs => ?_) ?_ (fun _ => ?_) ?_
      all_goals rw [show t.flagError = { t with hadError := true } from hrun t.items]
      · rw [hrun]
        rfl
      all_goals rfl
    · exact (appends_id 1000 t).congr fun _ => if_neg ht
  refine ⟨_, ((htook.comp hcs).comp (hflag _)).congr fun xs => ?_⟩
  unfold advance
  rw [hcap]

/-- Past the end of input nothing is consumed; otherwise the token in hand is. -/
theorem advance_pending {s : Parser} (h : s.current.kind ≠ .eof) :
    ∃ ts, ts ≠ [] ∧ s.pending = ts ++ s.advance.pending := by
  obtain ⟨_, hcs⟩ := skipComments_appends maxCommentLoop s.take.next
  obtain ⟨-, us, hus, -⟩ := hcs.consumed
  have hflag : s.advance.pending = (s.take.next.skipComments maxCommentLoop).pending := by
    unfold advance flagError
    split <;> rfl
  have htake : s.take.next.pending = s.lexer.tokens := by
    rw [AccountLemmas.pending_next]
    unfold take
    split <;> rfl
  refine ⟨s.current :: us, by simp, ?_⟩
  rw [AccountLemmas.pending_of_ne h, ← htake, hus, hflag]
  rfl

theorem report_appends (message : String) (s : Parser) : Appends 1000 (·.report message) s [] := by
  apply appends_still
  · intro xs
    unfold Parser.report
    simp only [show (s.withItems xs).panicMode = s.panicMode from rfl]
    split <;> rfl
  · unfold Parser.report
    split <;> rfl
  · intro hs
    unfold Parser.report
    split
    · exact hs
    · rfl
  · unfold Parser.report
    split <;> rfl

theorem syncLoop_appends (n : Nat) (hn : n ≤ 1000) (s : Parser) :
    ∃ new, Appends n (syncLoop n) s new := by
  induction n generalizing s with
  | zero =>
    by_cases he : s.current.kind = .eof
    · exact ⟨[], (appends_id 0 s).congr fun xs => if_pos he⟩
    · exact ⟨[], ((appends_cut he).mono (Nat.zero_le 1)).congr fun xs => if_neg he⟩
  | succ n ih =>
    by_cases he : s.current.kind = .eof
    · exact ⟨[], (appends_id (n + 1) s).congr fun xs => if_pos he⟩
    by_cases hsemi : s.previous.kind = .semi
    · refine ⟨[], (appends_id (n + 1) s).congr fun xs => ?_⟩
      exact (if_neg he).trans (if_pos hsemi)
    by_cases hkey : syncKeyword s.current.kind = true
    · refine ⟨[], (appends_id (n + 1) s).congr fun xs => ?_⟩
      exact (if_neg he).trans ((if_neg hsemi).trans (if_pos hkey))
    obtain ⟨new, hadv⟩ := advance_appends s
    obtain ⟨new', hloop⟩ := ih (by omega) s.advance
    obtain ⟨ts, hts, hpend⟩ := advance_pending he
    refine ⟨_, ((hadv.mono hn).comp_count hpend hts hloop).congr fun xs => ?_⟩
    exact (if_neg he).trans ((if_neg hsemi).trans (if_neg hkey))

theorem synchronize_appends (s : Parser) : ∃ new, Appends 1000 synchronize s new := by
  have hcap : maxSyncLoop = 1000 := by unfold maxSyncLoop; rfl
  have hcalm : Appends 1000 calm s [] := appends_still (fun _ => rfl) rfl id rfl
  by_cases he : s.current.kind = .eof
  · obtain ⟨new, hloop⟩ := syncLoop_appends 1000 (Nat.le_refl _) s.calm
    refine ⟨_, (hcalm.comp hloop).congr fun xs => ?_⟩
    unfold synchronize
    rw [show (s.withItems xs).current.kind = .eof from he, if_pos rfl, hcap]
  · obtain ⟨new, hadv⟩ := advance_appends s.calm
    obtain ⟨new', hloop⟩ := syncLoop_appends 1000 (Nat.le_refl _) s.calm.advance
    refine ⟨_, ((hcalm.comp hadv).comp hloop).congr fun xs => ?_⟩
    unfold synchronize
    rw [if_neg (show ¬ (s.withItems xs).current.kind = .eof from he), hcap]

theorem closeBrace_appends (message : String) (s : Parser) :
    ∃ new, Appends 1000 (·.closeBrace message) s new := by
  by_cases hk : s.current.kind = .rbrace
  · obtain ⟨new, hadv⟩ := advance_appends s
    exact ⟨new, hadv.congr fun xs => if_pos hk⟩
  · exact ⟨[], (report_appends message s).congr fun xs => if_neg hk⟩

theorem markLone_appends (b : Bool) (s : Parser) : Appends 1000 (·.markLone b) s [] := by
  cases b
  · exact appends_id 1000 s
  · exact appends_still (fun _ => rfl) rfl id rfl

/-! ## Above a list of items -/

/-- The items of `s` are `xs` above `pre`, and its recursion counter is `d` if there is a `d`. -/
structure Above (pre : List Elem) (d : Option Int) (s : Parser) (xs : List Elem) : Prop where
  items : s.items = pre ++ xs
  depth : ∀ k ∈ d, s.recursionDepth = k

/-- What holds of the items `ys` that `xs` have become on the way from `s` to `t`. -/
structure Grows (s : Parser) (xs : List Elem) (t : Parser) (ys : List Elem) : Prop where
  climbed : climbedAll xs = true → climbedAll ys = true
  leaves : ∃ ls, leavesOf ys = leavesOf xs ++ ls ∧ Consumed 1000 s t ls

theorem Grows.refl (s : Parser) (xs : List Elem) : Grows s xs s xs :=
  ⟨id, [], by simp, .none id rfl⟩

theorem Grows.trans {s t u : Parser} {xs ys zs : List Elem} (h : Grows s xs t ys)
    (h' : Grows t ys u zs) : Grows s xs u zs := by
  obtain ⟨ls, hls, hcons⟩ := h.leaves
  obtain ⟨ms, hms, hcons'⟩ := h'.leaves
  refine ⟨h'.climbed ∘ h.climbed, ls ++ ms, ?_, hcons.trans hcons'⟩
  rw [hms, hls, List.append_assoc]

/-- `t` and `t'` are reached from `s`, the one above `pre`, the other one above `pre'`. -/
def Beside (pre pre' : List Elem) (d : Option Int) (s : Parser) (xs : List Elem) (t t' : Parser) :
    Prop :=
  ∃ ys, Above pre d t ys ∧ Grows s xs t ys ∧ (Starts xs → Starts ys) ∧
    t' = t.withItems (pre' ++ ys)

section

variable {pre pre' : List Elem} {d : Option Int}

theorem Beside.trans {s t t' u u' : Parser} {xs : List Elem} (h : Beside pre pre' d s xs t t')
    (h' : ∀ ys, Above pre d t ys → t' = t.withItems (pre' ++ ys) → Beside pre pre' d t ys u u') :
    Beside pre pre' d s xs u u' := by
  obtain ⟨ys, hys, hgrow, hstart, ht'⟩ := h
  obtain ⟨zs, hzs, hgrow', hstart', hu'⟩ := h' ys hys ht'
  exact ⟨zs, hzs, hgrow.trans hgrow', hstart' ∘ hstart, hu'⟩

/-- The rest of a way whose first part is known. -/
theorem Grows.beside {s t u u' : Parser} {xs ys : List Elem} (h : Grows s xs t ys)
    (hstart : Starts xs → Starts ys) (h' : Beside pre pre' d t ys u u') :
    Beside pre pre' d s xs u u' := by
  obtain ⟨zs, hzs, hgrow, hstart', hu'⟩ := h'
  exact ⟨zs, hzs, h.trans hgrow, hstart' ∘ hstart, hu'⟩

theorem Above.beside {s : Parser} {xs : List Elem} (h : Above pre d s xs) :
    Beside pre pre' d s xs s (s.withItems (pre' ++ xs)) :=
  ⟨xs, h, .refl s xs, id, rfl⟩

theorem Appends.above {cap : Nat} {f : Parser → Parser} {s : Parser} {new xs : List Elem}
    (h : Appends cap f s new) (hs : Above pre d s xs) : Above pre d (f s) (xs ++ new) :=
  ⟨by rw [h.items, hs.items, List.append_assoc], fun k hk => h.depth.trans (hs.depth k hk)⟩

theorem Appends.grows {f : Parser → Parser} {s : Parser} {new : List Elem}
    (h : Appends 1000 f s new) (xs : List Elem) : Grows s xs (f s) (xs ++ new) := by
  refine ⟨fun hxs => ?_, leavesOf new, AccountLemmas.leavesOf_append xs new, h.consumed⟩
  rw [climbedAll_append, hxs, h.climbed]
  rfl

theorem Appends.beside {f : Parser → Parser} {s : Parser} {new xs : List Elem}
    (h : Appends 1000 f s new) (hs : Above pre d s xs) :
    Beside pre pre' d s xs (f s) (f (s.withItems (pre' ++ xs))) :=
  ⟨xs ++ new, h.above hs, h.grows xs, fun hstart => hstart.append new,
    by rw [h.run, List.append_assoc]⟩

theorem wrap_withItems (pre : List Elem) (s : Parser) {xs : List Elem} {k : Nat}
    (hk : ¬ xs.length ≤ k) (kind : SyntaxNodeKind) :
    (s.withItems (pre ++ xs)).wrap (pre.length + k) kind =
      s.withItems (pre ++ (xs.take k ++ [.node kind (xs.drop k)])) := by
  unfold Parser.wrap
  rw [if_neg (by rw [withItems_items, List.length_append]; omega)]
  simp only [withItems_items, List.take_length_add_append, List.drop_length_add_append,
    List.append_assoc]
  rfl

/-- A wrap at a checkpoint above the items. -/
theorem wrap_beside {s : Parser} {xs : List Elem} {kind : SyntaxNodeKind} (hs : Above pre d s xs)
    (k : Nat) (hk : isOtherKind kind = true) :
    Beside pre pre' d s xs (s.wrap (pre.length + k) kind)
      ((s.withItems (pre' ++ xs)).wrap (pre'.length + k) kind) := by
  by_cases hle : xs.length ≤ k
  · have hleft : s.wrap (pre.length + k) kind = s :=
      if_pos (by rw [hs.items, List.length_append]; omega)
    have hright : (s.withItems (pre' ++ xs)).wrap (pre'.length + k) kind =
        s.withItems (pre' ++ xs) :=
      if_pos (by rw [withItems_items, List.length_append]; omega)
    rw [hleft, hright]
    exact hs.beside
  · have hleft : s.wrap (pre.length + k) kind =
        s.withItems (pre ++ (xs.take k ++ [.node kind (xs.drop k)])) := by
      rw [← wrap_withItems _ s hle, ← hs.items, withItems_self]
    rw [hleft, wrap_withItems _ s hle]
    have hsplit : xs.take k ++ xs.drop k = xs := List.take_append_drop k xs
    refine ⟨xs.take k ++ [.node kind (xs.drop k)], ⟨rfl, hs.depth⟩, ⟨fun hxs => ?_, [], ?_, ?_⟩,
      ?_, rfl⟩
    · rw [← hsplit, climbedAll_append, Bool.and_eq_true] at hxs
      rw [climbedAll_append, hxs.1]
      simp [climbedAll, climbed_node hk, hxs.2]
    · have hleaves := congrArg leavesOf hsplit
      rw [AccountLemmas.leavesOf_append] at hleaves
      rw [List.append_nil, ← hleaves, AccountLemmas.leavesOf_append]
      simp [leavesOf, Elem.leaves]
    · exact .none id rfl
    · rintro ⟨x, rest, rfl, hx⟩
      cases k with
      | zero =>
        refine ⟨_, [], rfl, fun cs hcs => ?_⟩
        cases hcs
        cases hk
      | succ k => exact ⟨x, rest.take k ++ _, rfl, hx⟩

end

/-! ## Actions -/

/-- `p` above `pre` and `q` above `pre'` do the same. -/
class Local {α : Type} (pre pre' : List Elem) (d : Option Int) (p q : P α) : Prop where
  out : ∀ {m s o t xs}, Above pre d s xs → p.run m s = some (o, t) →
    ∃ t', q.run m (s.withItems (pre' ++ xs)) = some (o, t') ∧ Beside pre pre' d s xs t t'

end Arche.Syntax
