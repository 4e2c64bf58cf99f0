import Arche.Syntax.Local

/-!
# Rules for local actions

`Local` for the actions of `ParserMonad`. They are instances, so that a function of the parser is
local by its structure.
-/

namespace Arche.Syntax

open P Arche.Syntax.Parser MoveLemmas

variable {α β σ : Type} {pre pre' : List Elem} {d : Option Int}

theorem Above.cancel {s : Parser} {xs ys : List Elem} (h : Above pre d s xs)
    (h' : Above pre d s ys) : xs = ys :=
  List.append_cancel_left (h.items.symm.trans h'.items)

/-- What stands above `pre ++ zs` stands behind `zs` above `pre`. -/
theorem above_append {s : Parser} {zs xs : List Elem} :
    Above (pre ++ zs) d s xs ↔ Above pre d s (zs ++ xs) := by
  constructor
  · rintro ⟨hitems, hdepth⟩
    exact ⟨by rw [hitems, List.append_assoc], hdepth⟩
  · rintro ⟨hitems, hdepth⟩
    exact ⟨by rw [hitems, List.append_assoc], hdepth⟩

theorem Grows.frame {s t : Parser} {xs ys : List Elem} (h : Grows s xs t ys) (zs : List Elem) :
    Grows s (zs ++ xs) t (zs ++ ys) := by
  obtain ⟨ls, hls, hcons⟩ := h.leaves
  refine ⟨fun hclimb => ?_, ls, ?_, hcons⟩
  · rw [climbedAll_append, Bool.and_eq_true] at hclimb ⊢
    exact ⟨hclimb.1, h.climbed hclimb.2⟩
  · rw [AccountLemmas.leavesOf_append, AccountLemmas.leavesOf_append, hls, List.append_assoc]

/-- A local action that starts with no items of its own. -/
theorem Local.fresh {p q : P α} (h : Local pre pre' d p q) {m : Mode} {s t : Parser} {o : Option α}
    (hs : Above pre d s []) (hrun : p.run m s = some (o, t)) :
    ∃ ys, Above pre d t ys ∧ Grows s [] t ys ∧
      q.run m (s.withItems pre') = some (o, t.withItems (pre' ++ ys)) := by
  obtain ⟨t', ht', ys, hys, hgrow, -, rfl⟩ := h.out hs hrun
  rw [List.append_nil] at ht'
  exact ⟨ys, hys, hgrow, ht'⟩

/-- Above the same items both do the very same. -/
theorem Local.same {p q : P α} (h : Local [] [] d p q) {m : Mode} {s t : Parser} {o : Option α}
    (hd : ∀ k ∈ d, s.recursionDepth = k) (hrun : p.run m s = some (o, t)) :
    q.run m s = some (o, t) ∧ ∀ k ∈ d, t.recursionDepth = k := by
  have hs : Above [] d s s.items := ⟨rfl, hd⟩
  obtain ⟨t', ht', ys, hys, -, -, rfl⟩ := h.out hs hrun
  have hitems : t.items = ys := hys.items
  rw [← hitems] at ht'
  exact ⟨ht', hys.depth⟩

/-! ## Straight-line actions -/

/-- `f` does not look at the items. -/
class Blind (f : Parser → α) : Prop where
  out : ∀ s xs, f (s.withItems xs) = f s

instance (k : TokenKind) : Blind fun s => s.current.kind == k := ⟨fun _ _ => rfl⟩

instance (k : TokenKind) : Blind fun s => s.previous.kind == k := ⟨fun _ _ => rfl⟩

instance (w : List Char) : Blind fun s => s.current.text == w := ⟨fun _ _ => rfl⟩

instance (kw : String) : Blind (·.curIdentIs kw) := ⟨fun _ _ => rfl⟩

instance (close : Option TokenKind) : Blind fun s => close == some s.current.kind :=
  ⟨fun _ _ => rfl⟩

instance (minPrec : Nat) : Blind fun s => bindsAt minPrec s.current.kind := ⟨fun _ _ => rfl⟩

instance : Blind (·.current.kind) := ⟨fun _ _ => rfl⟩

instance : Blind (·.current.text) := ⟨fun _ _ => rfl⟩

instance : Blind (·.noBraceLit) := ⟨fun _ _ => rfl⟩

instance : Blind (·.inForeign) := ⟨fun _ _ => rfl⟩

instance : Blind failedTypeKind := ⟨fun _ _ => rfl⟩

instance (f g : Parser → Bool) [hf : Blind f] [hg : Blind g] : Blind fun s => f s || g s :=
  ⟨fun s xs => by rw [hf.out, hg.out]⟩

instance (b : Bool) (f : Parser → Bool) [hf : Blind f] : Blind fun s => b && f s :=
  ⟨fun s xs => by rw [hf.out]⟩

instance (a : α) : Local pre pre' d (pure a) (pure a) :=
  ⟨fun hs h => by cases h; exact ⟨_, rfl, hs.beside⟩⟩

instance (f : Parser → α) [hf : Blind f] : Local pre pre' d (ask f) (ask f) := by
  constructor
  intro m s o t xs hs h
  cases h
  refine ⟨s.withItems (pre' ++ xs), ?_, hs.beside⟩
  have hrun : (ask f).run m (s.withItems (pre' ++ xs)) =
      some (some (f (s.withItems (pre' ++ xs))), s.withItems (pre' ++ xs)) := rfl
  rw [hrun, hf.out]

instance (k : TokenKind) : Local pre pre' d (check k) (check k) := by
  unfold check
  infer_instance

/-- The items since a checkpoint. -/
theorem drop_above {s : Parser} {xs : List Elem} (h : Above pre d s xs) (k : Nat) :
    s.items.drop (pre.length + k) = xs.drop k := by
  rw [h.items, List.drop_length_add_append]

instance (k : Nat) : Local pre pre' d (ask (·.singleNode (pre.length + k)))
    (ask (·.singleNode (pre'.length + k))) := by
  constructor
  intro m s o t xs hs h
  cases h
  have heq : (s.withItems (pre' ++ xs)).singleNode (pre'.length + k) =
      s.singleNode (pre.length + k) := by
    unfold singleNode
    rw [drop_above hs, withItems_items, List.drop_length_add_append]
  exact ⟨s.withItems (pre' ++ xs),
    congrArg (fun b => some (some b, s.withItems (pre' ++ xs))) heq, hs.beside⟩

instance (k : Nat) : Local pre pre' d (ask (·.singleNodeKind (pre.length + k)))
    (ask (·.singleNodeKind (pre'.length + k))) := by
  constructor
  intro m s o t xs hs h
  cases h
  have heq : (s.withItems (pre' ++ xs)).singleNodeKind (pre'.length + k) =
      s.singleNodeKind (pre.length + k) := by
    unfold singleNodeKind
    rw [drop_above hs, withItems_items, List.drop_length_add_append]
  exact ⟨s.withItems (pre' ++ xs),
    congrArg (fun b => some (some b, s.withItems (pre' ++ xs))) heq, hs.beside⟩

theorem matchIf_true {f : TokenKind → Bool} {hf : f .eof = false} {m : Mode} {s : Parser}
    (h : f s.current.kind = true) : (matchIf f hf).run m s = some (some true, s.advance) := by
  simp only [matchIf, lift, h, if_true]

theorem matchIf_false {f : TokenKind → Bool} {hf : f .eof = false} {m : Mode} {s : Parser}
    (h : f s.current.kind = false) : (matchIf f hf).run m s = some (some false, s) := by
  simp only [matchIf, lift, h, Bool.false_eq_true, if_false]

instance (f : TokenKind → Bool) (hf : f .eof = false) :
    Local pre pre' d (matchIf f hf) (matchIf f hf) := by
  constructor
  intro m s o t xs hs h
  cases hk : f s.current.kind with
  | true =>
    rw [matchIf_true hk] at h
    cases h
    obtain ⟨new, hadv⟩ := advance_appends s
    exact ⟨_, matchIf_true hk, hadv.beside hs⟩
  | false =>
    rw [matchIf_false hk] at h
    cases h
    exact ⟨_, matchIf_false hk, hs.beside⟩

instance (k : TokenKind) (hk : (TokenKind.eof == k) = false) :
    Local pre pre' d (matchTok k hk) (matchTok k hk) :=
  inferInstanceAs (Local pre pre' d (matchIf (· == k) hk) (matchIf (· == k) hk))

instance (message : String) : Local pre pre' d (report message) (report message) :=
  ⟨fun {_ s _ _ _} hs h => by cases h; exact ⟨_, rfl, (report_appends message s).beside hs⟩⟩

instance (message : String) : Local pre pre' d (fail message : P α) (fail message) :=
  ⟨fun {_ s _ _ _} hs h => by cases h; exact ⟨_, rfl, (report_appends message s).beside hs⟩⟩

instance (k : Nat) (kind : SyntaxNodeKind) [hk : IsTrue (isOtherKind kind)] :
    Local pre pre' d (wrap (pre.length + k) kind) (wrap (pre'.length + k) kind) :=
  ⟨fun hs h => by cases h; exact ⟨_, rfl, wrap_beside hs k hk.out⟩⟩

instance (b : Bool) : Local pre pre' d (setInForeign b) (setInForeign b) := by
  constructor
  intro m s o t xs hs h
  cases h
  have hstill : Appends 1000 (fun s => { s with inForeign := b }) s [] :=
    appends_still (fun _ => rfl) rfl id rfl
  exact ⟨_, rfl, hstill.beside hs⟩

instance (c : Prop) [Decidable c] (p q p' q' : P α) [Local pre pre' d p p']
    [Local pre pre' d q q'] :
    Local pre pre' d (if c then p else q) (if c then p' else q') := by
  split <;> infer_instance

/-- The second action may use what the first one returned. -/
theorem Local.bind_of {p q : P α} {f g : α → P β} (hp : Local pre pre' d p q)
    (hf : ∀ {m s a t}, p.run m s = some (some a, t) → Local pre pre' d (f a) (g a)) :
    Local pre pre' d (p >>= f) (q >>= g) := by
  constructor
  intro m s o t xs hs h
  rw [bind_run] at h
  split at h
  · cases h
  · next u hu =>
    cases h
    obtain ⟨u', hu', hbeside⟩ := hp.out hs hu
    exact ⟨u', by rw [bind_run, hu'], hbeside⟩
  · next a u hu =>
    obtain ⟨u', hu', ys, hys, hgrow, hstart, rfl⟩ := hp.out hs hu
    obtain ⟨t', ht', hbeside⟩ := (hf hu).out hys h
    exact ⟨t', by rw [bind_run, hu']; exact ht', hgrow.beside hstart hbeside⟩

instance (p q : P α) (f g : α → P β) [hp : Local pre pre' d p q]
    [hf : ∀ a, Local pre pre' d (f a) (g a)] : Local pre pre' d (p >>= f) (q >>= g) :=
  hp.bind_of fun {_ _ a _} _ => hf a

instance (f : α → β) (p q : P α) [Local pre pre' d p q] :
    Local pre pre' d (f <$> p) (f <$> q) :=
  inferInstanceAs (Local pre pre' d (p >>= fun a => pure (f a)) (q >>= fun a => pure (f a)))

theorem checkpoint_run (f : Nat → P β) (m : Mode) (s : Parser) :
    (checkpoint >>= f).run m s = (f s.items.length).run m s := rfl

/-- A checkpoint taken now is as far above `pre` as above `pre'`. -/
instance (priority := 10500) (f g : Nat → P β)
    [hf : ∀ k, Local pre pre' d (f (pre.length + k)) (g (pre'.length + k))] :
    Local pre pre' d (checkpoint >>= f) (checkpoint >>= g) := by
  constructor
  intro m s o t xs hs h
  rw [checkpoint_run, hs.items, List.length_append] at h
  obtain ⟨t', ht', hbeside⟩ := (hf xs.length).out hs h
  refine ⟨t', ?_, hbeside⟩
  rw [checkpoint_run, withItems_items, List.length_append]
  exact ht'

/-! ## Ways out of a failed call -/

instance (p q : P α) [hp : Local pre pre' d p q] : Local pre pre' d (attempt p) (attempt q) := by
  constructor
  intro m s o t xs hs h
  obtain ⟨⟨o', u⟩, hu, he⟩ := Option.map_eq_some_iff.mp h
  cases he
  obtain ⟨t', ht', hbeside⟩ := hp.out hs hu
  exact ⟨t', by simp [attempt, ht'], hbeside⟩

theorem local_onFail {p q : P α} {f g : Parser → Parser} {h1 : ∀ s, Reach s (f s)}
    {h2 : ∀ s, s.panicMode = true → (f s).panicMode = true} {h1' : ∀ s, Reach s (g s)}
    {h2' : ∀ s, s.panicMode = true → (g s).panicMode = true} (hp : Local pre pre' d p q)
    (hf : ∀ {s xs}, Above pre d s xs →
      Beside pre pre' d s xs (f s) (g (s.withItems (pre' ++ xs)))) :
    Local pre pre' d (onFail p f h1 h2) (onFail q g h1' h2') := by
  constructor
  intro m s o t xs hs h
  obtain ⟨hfailed, hpassed⟩ := onFail_run p f h1 h2 m s
  obtain ⟨hfailed', hpassed'⟩ := onFail_run q g h1' h2' m (s.withItems (pre' ++ xs))
  by_cases hnone : ∃ u, p.run m s = some (none, u)
  · obtain ⟨u, hu⟩ := hnone
    rw [hfailed u hu] at h
    cases h
    obtain ⟨u', hu', hbeside⟩ := hp.out hs hu
    refine ⟨g u', hfailed' u' hu', hbeside.trans fun ys hys heq => ?_⟩
    rw [heq]
    exact hf hys
  · rw [hpassed fun u hu => hnone ⟨u, hu⟩] at h
    obtain ⟨t', ht', hbeside⟩ := hp.out hs h
    refine ⟨t', ?_, hbeside⟩
    rw [hpassed' fun u hu => ?_, ht']
    rw [ht'] at hu
    cases hu
    exact hnone ⟨t, h⟩

instance (p q : P α) (message : String) [hp : Local pre pre' d p q] :
    Local pre pre' d (orReport p message) (orReport q message) :=
  local_onFail hp fun {s _} hs => (report_appends message s).beside hs

instance (p q : P α) (k : Nat) (kind : SyntaxNodeKind) [hp : Local pre pre' d p q]
    [hk : IsTrue (isOtherKind kind)] :
    Local pre pre' d (orWrap p (pre.length + k) kind) (orWrap q (pre'.length + k) kind) :=
  local_onFail hp fun hs => wrap_beside hs k hk.out

instance (k : TokenKind) (message : String) (hk : k ≠ .eof) :
    Local pre pre' d (failPast k message hk : P α) (failPast k message hk) := by
  refine local_onFail inferInstance fun {s xs} hs => ?_
  by_cases hc : s.current.kind = k
  · obtain ⟨new, hadv⟩ := advance_appends s
    rw [if_pos hc, if_pos (show (s.withItems (pre' ++ xs)).current.kind = k from hc)]
    exact hadv.beside hs
  · rw [if_neg hc, if_neg (show ¬ (s.withItems (pre' ++ xs)).current.kind = k from hc)]
    exact hs.beside

instance (p q : P α) [hp : Local pre pre' d p q] :
    Local pre pre' d (withoutBraceLit p) (withoutBraceLit q) := by
  constructor
  intro m s o t xs hs h
  obtain ⟨⟨o', u⟩, hu, he⟩ := Option.map_eq_some_iff.mp h
  cases he
  have hset : Above pre d { s with noBraceLit := true } xs := ⟨hs.items, hs.depth⟩
  obtain ⟨u', hu', ys, hys, ⟨hclimb, ls, hls, hcons⟩, hstart, rfl⟩ := hp.out hset hu
  refine ⟨{ u with noBraceLit := s.noBraceLit, items := pre' ++ ys }, ?_, ys,
    ⟨hys.items, hys.depth⟩, ⟨hclimb, ls, hls, hcons.flagged, hcons.tokens⟩, hstart, rfl⟩
  have hrun : (withoutBraceLit q).run m (s.withItems (pre' ++ xs)) =
      (q.run m (({ s with noBraceLit := true } : Parser).withItems (pre' ++ xs))).map fun r =>
        (r.1, { r.2 with noBraceLit := s.noBraceLit }) := rfl
  rw [hrun, hu']
  rfl

instance (p q : P α) [hp : Local pre pre' d p q] : Local pre pre' d (recover p) (recover q) := by
  constructor
  intro m s o t xs hs h
  have hrun : (recover q).run m (s.withItems (pre' ++ xs)) =
      match q.run m (s.withItems (pre' ++ xs)) with
      | none => none
      | some (none, t) => some (some none, t.synchronize)
      | some (some a, t) => some (some (some a), t) := rfl
  simp only [recover] at h
  split at h
  · cases h
  · next u hu =>
    cases h
    obtain ⟨u', hu', hbeside⟩ := hp.out hs hu
    refine ⟨u'.synchronize, by rw [hrun, hu'], hbeside.trans fun ys hys heq => ?_⟩
    obtain ⟨new, hsync⟩ := synchronize_appends u
    rw [heq]
    exact hsync.beside hys
  · next a u hu =>
    cases h
    obtain ⟨u', hu', hbeside⟩ := hp.out hs hu
    exact ⟨u', by rw [hrun, hu'], hbeside⟩

/-! ## Loops -/

/-- More rounds than there are unread bytes are never used. -/
theorem loopRun_rounds {body : σ → Parser → Option (Option (Bool × σ) × Parser)} {n n' : Nat}
    {a : σ}
    {s : Parser} (hn : s.unread < n) (hn' : s.unread < n') :
    loopRun body n a s = loopRun body n' a s := by
  induction n generalizing n' a s with
  | zero => omega
  | succ n ih =>
    obtain ⟨k, rfl⟩ : ∃ k, n' = k + 1 := ⟨n' - 1, by omega⟩
    unfold loopRun
    split
    · rfl
    · rfl
    · rfl
    · next b t _ =>
      by_cases hlt : t.unread < s.unread
      · rw [if_pos hlt, if_pos hlt]
        exact ih (by omega) (by omega)
      · rw [if_neg hlt, if_neg hlt]

/-- A loop is a round and, if that says so, the loop again. -/
theorem loop_run (body : P Bool) (m : Mode) (s : Parser) :
    (loop body).run m s =
      match body.run m s with
      | none => none
      | some (none, t) => some (none, t)
      | some (some false, t) => some (some (), t)
      | some (some true, t) => if t.unread < s.unread then (loop body).run m t else none := by
  have hloop : ∀ u : Parser, (loop body).run m u =
      loopRun (fun a => (do return (← body, a) : P (Bool × Unit)).run m) (u.unread + 1) () u :=
    fun _ => rfl
  have hround : (do return (← body, ()) : P (Bool × Unit)).run m s =
      match body.run m s with
      | none => none
      | some (none, t) => some (none, t)
      | some (some b, t) => some (some (b, ()), t) := by
    rw [bind_run]
    rcases body.run m s with _ | ⟨_ | _, t⟩ <;> rfl
  rw [hloop]
  unfold loopRun
  rw [hround]
  rcases body.run m s with _ | ⟨_ | _ | _, t⟩
  · rfl
  · rfl
  · rfl
  · dsimp only
    by_cases hlt : t.unread < s.unread
    · rw [if_pos hlt, if_pos hlt, hloop]
      exact loopRun_rounds hlt (Nat.lt_succ_self _)
    · rw [if_neg hlt, if_neg hlt]

theorem loopRun_local {body body' : σ → P (Bool × σ)}
    (hb : ∀ a, Local pre pre' d (body a) (body' a)) {m : Mode} {n : Nat} {a : σ} {s t : Parser}
    {o : Option σ} {xs : List Elem} (hs : Above pre d s xs)
    (h : loopRun (fun a => (body a).run m) n a s = some (o, t)) :
    ∃ t', loopRun (fun a => (body' a).run m) n a (s.withItems (pre' ++ xs)) = some (o, t') ∧
      Beside pre pre' d s xs t t' := by
  induction n generalizing a s xs with
  | zero => cases h
  | succ n ih =>
    unfold loopRun at h ⊢
    split at h
    · cases h
    · next u hu =>
      cases h
      obtain ⟨u', hu', hbeside⟩ := (hb a).out hs hu
      exact ⟨u', by rw [hu'], hbeside⟩
    · next b u hu =>
      cases h
      obtain ⟨u', hu', hbeside⟩ := (hb a).out hs hu
      exact ⟨u', by rw [hu'], hbeside⟩
    · next b u hu =>
      split at h
      · next hlt =>
        obtain ⟨u', hu', ys, hys, hgrow, hstart, rfl⟩ := (hb a).out hs hu
        obtain ⟨t', ht', hbeside⟩ := ih hys h
        refine ⟨t', ?_, hgrow.beside hstart hbeside⟩
        rw [hu']
        exact (if_pos hlt).trans ht'
      · cases h

instance (init : σ) (body body' : σ → P (Bool × σ))
    [hb : ∀ a, Local pre pre' d (body a) (body' a)] :
    Local pre pre' d (loopOn init body) (loopOn init body') :=
  ⟨fun hs h => loopRun_local hb hs h⟩

instance (body body' : P Bool) [Local pre pre' d body body'] :
    Local pre pre' d (loop body) (loop body') := by
  unfold loop
  infer_instance

instance (k : TokenKind) (body body' : P Unit) (hk : (TokenKind.eof == k) = false)
    [Local pre pre' d body body'] :
    Local pre pre' d (whileTok k body hk) (whileTok k body' hk) := by
  unfold whileTok
  infer_instance

instance (close : Option TokenKind) : Local pre pre' d (more close) (more close) := by
  unfold more
  infer_instance

instance (item item' : P Unit) (close : Option TokenKind) [Local pre pre' d item item'] :
    Local pre pre' d (sepBy item close) (sepBy item' close) := by
  unfold sepBy
  infer_instance

instance (close : TokenKind) (item item' : P Bool) [Local pre pre' d item item'] :
    Local pre pre' d (untilTok close item) (untilTok close item') := by
  unfold untilTok
  infer_instance

instance (k : TokenKind) (message : String) (hk : (TokenKind.eof == k) = false) :
    Local pre pre' d (expect k message hk) (expect k message hk) := by
  unfold expect
  infer_instance

instance (f : TokenKind → Bool) (message : String) (hf : f .eof = false) :
    Local pre pre' d (expectIf f message hf) (expectIf f message hf) := by
  unfold expectIf
  infer_instance

instance (k : TokenKind) (message : String) (hk : (TokenKind.eof == k) = false) :
    Local pre pre' d (closing k message hk) (closing k message hk) := by
  unfold closing
  infer_instance

instance (k : TokenKind) (hk : (TokenKind.eof == k) = false) :
    Local pre pre' d (optTok k hk) (optTok k hk) := by
  unfold optTok
  infer_instance

instance (kind : SyntaxNodeKind) (message : String) [IsTrue (isOtherKind kind)] :
    Local pre pre' d (nameNode kind message) (nameNode kind message) := by
  unfold nameNode
  infer_instance

end Arche.Syntax
