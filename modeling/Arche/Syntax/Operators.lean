import Arche.Lib.Precedence
import Arche.Syntax.LocalRules
import Mathlib.Data.Nat.Basic

/-!
# Operator chains

What `parse_binary_rhs` reads is a chain of links: an operator with the comments behind it, an
operand, and the failure policy of a division. The chain is read without a tree (`Links`). The
tree that `parse_binary_rhs` wraps together above its checkpoint is an ordered operator tree of
the same links.
-/

namespace Arche.Syntax

open P Arche.Syntax.Parser MoveLemmas Arche.Lib.Precedence

/-! ## Trees -/

/-- An operator of a chain: its token with the comments behind it, and its failure policy. -/
structure Link where
  op : TokenKind
  join : List Elem
  policy : List Elem

def Link.prec (b : Link) : Nat := binopPrec b.op

/-- The node of an operator tree. -/
def treeElem : Tree Elem Link → Elem
  | .leaf e => e
  | .node l b r => .node .binaryExpr (treeElem l :: b.join ++ treeElem r :: b.policy)

/-- An operand: one node, which is no binary node. -/
structure IsOperand (e : Elem) : Prop where
  climbed : e.climbed = true
  node : ∃ kind cs, e = .node kind cs ∧ isOtherKind kind = true

/-- A link starts with its operator. -/
structure Link.Sound (b : Link) : Prop where
  prec_pos : 0 < b.prec
  join : ∃ w x y z cs, b.join = .token b.op w x y z :: cs ∧ ∀ e ∈ cs, isComment e = true
  policy : climbedAll b.policy = true

/-- An operator tree as `parse_expression` builds it. -/
structure Grammatical (T : Tree Elem Link) : Prop where
  all : T.All IsOperand Link.Sound
  ordered : T.Ordered Link.prec

theorem IsOperand.operator {e : Elem} (h : IsOperand e) : e.operator = none := by
  obtain ⟨kind, cs, rfl, hk⟩ := h.node
  cases kind <;> first | rfl | cases hk

theorem operator_treeElem {T : Tree Elem Link} (h : T.All IsOperand Link.Sound) :
    (treeElem T).operator = T.root.map Link.op := by
  cases T with
  | leaf e => exact IsOperand.operator h
  | node l b r =>
    obtain ⟨-, hb, -⟩ := h
    obtain ⟨w, x, y, z, cs, hjoin, -⟩ := hb.join
    simp [treeElem, hjoin, Elem.operator, Tree.root]

theorem treeElem_isNode {T : Tree Elem Link} (h : T.All IsOperand Link.Sound) :
    ∃ kind cs, treeElem T = .node kind cs := by
  cases T with
  | leaf e =>
    obtain ⟨kind, cs, he, -⟩ := IsOperand.node h
    exact ⟨kind, cs, he⟩
  | node l b r => exact ⟨_, _, rfl⟩

theorem climbedAll_comments {cs : List Elem} (h : ∀ e ∈ cs, isComment e = true) :
    climbedAll cs = true := by
  induction cs with
  | nil => rfl
  | cons e es ih =>
    have he : e.climbed = true := by
      cases e with
      | token _ _ _ _ _ => rfl
      | node _ _ => cases h _ List.mem_cons_self
    simp [climbedAll, he, ih fun e' he' => h e' (List.mem_cons_of_mem _ he')]

/-- The binary nodes of a grammatical tree have their operands in order. -/
theorem Grammatical.climbed {T : Tree Elem Link} (h : Grammatical T) :
    (treeElem T).climbed = true := by
  obtain ⟨hall, hord⟩ := h
  induction T with
  | leaf e => exact IsOperand.climbed hall
  | node l b r ihl ihr =>
    obtain ⟨hl, hb, hr⟩ := hall
    obtain ⟨hol, hor, hle, hlt⟩ := hord
    obtain ⟨w, x, y, z, cs, hjoin, hcs⟩ := hb.join
    have hskip : (cs ++ treeElem r :: b.policy).dropWhile isComment = treeElem r :: b.policy := by
      obtain ⟨kind, es, hnode⟩ := treeElem_isNode hr
      rw [List.dropWhile_append_of_pos hcs, hnode]
      rfl
    have hleft : (treeElem l).operator.all
        (fun o => decide (binopPrec b.op ≤ binopPrec o)) = true := by
      rw [operator_treeElem hl, Option.all_map, Option.all_eq_true]
      exact fun o ho => decide_eq_true (hle o ho)
    have hright : (treeElem r).operator.all
        (fun o => decide (binopPrec b.op < binopPrec o)) = true := by
      rw [operator_treeElem hr, Option.all_map, Option.all_eq_true]
      exact fun o ho => decide_eq_true (hlt o ho)
    have hpos : 0 < binopPrec b.op := hb.prec_pos
    have horder : operandsInOrder (treeElem l :: b.join ++ treeElem r :: b.policy) = true := by
      rw [hjoin]
      simp only [List.cons_append, operandsInOrder, hskip, hleft, hright, hpos, decide_true,
        Bool.and_self]
    have hchildren : climbedAll (treeElem l :: b.join ++ treeElem r :: b.policy) = true := by
      rw [hjoin]
      simp [climbedAll, climbedAll_append, Elem.climbed, ihl hl hol, ihr hr hor,
        climbedAll_comments hcs, hb.policy]
    simp only [treeElem, Elem.climbed, hchildren, horder, Bool.or_true, Bool.and_self]

/-! ## Chains -/

/-- How operands are read: `reads m s e t` is the operand `e` between `s` and `t`, and `fails m s`
that there is none at `s`. The states have no items. -/
structure Operands where
  reads : Mode → Parser → Elem → Parser → Prop
  fails : Mode → Parser → Prop

variable (O : Operands) (m : Mode)

/-- The links read from `s` to `t`, states without items. -/
inductive Links : Parser → List (Link × Elem) → Parser → Prop
  | nil (s : Parser) : Links s [] s
  | cons {s v w t : Parser} {e : Elem} {ls : List (Link × Elem)}
      (hop : bindsAt 1 s.current.kind = true) (hread : O.reads m s.advance.bare e v)
      (hpol : (divPolicy s.current.kind).run m v = some (some (), w)) (hrest : Links w.bare ls t) :
      Links s ((⟨s.current.kind, s.advance.items, w.items⟩, e) :: ls) t

/-- An operator without an operand, or a division with a malformed policy. -/
def Broken (u : Parser) : Prop :=
  bindsAt 1 u.current.kind = true ∧
    (O.fails m u.advance.bare ∨
      ∃ e v w, O.reads m u.advance.bare e v ∧
        (divPolicy u.current.kind).run m v = some (none, w))

variable {O m}

theorem Links.append {s t u : Parser} {ls ls' : List (Link × Elem)} (h : Links O m s ls t)
    (h' : Links O m t ls' u) : Links O m s (ls ++ ls') u := by
  induction h with
  | nil _ => exact h'
  | cons hop hread hpol _ ih => exact .cons hop hread hpol (ih h')

/-! ## What `parse_binary_rhs` does -/

variable (O)

/-- `p` extends the tree above `pre` by the links at its operators of at least `minPrec`; `q` does
the same above `pre'`. -/
def Climbs (d : Option Int) (pre pre' : List Elem) (minPrec : Nat) (p q : P Unit) : Prop :=
  ∀ {m s o t T}, Above pre d s [treeElem T] → Grammatical T →
    (bindsAt minPrec s.current.kind = true → ∀ b ∈ T.root, binopPrec s.current.kind ≤ b.prec) →
    p.run m s = some (o, t) →
      ∃ ys, Above pre d t ys ∧ Grows s [treeElem T] t ys ∧
        q.run m (s.withItems (pre' ++ [treeElem T])) = some (o, t.withItems (pre' ++ ys)) ∧
        match o with
        | some () => ∃ T' ls, ys = [treeElem T'] ∧ Grammatical T' ∧ T'.first = T.first ∧
            T'.links = T.links ++ ls ∧ Links O m s.bare ls t.bare ∧
            bindsAt minPrec t.current.kind = false ∧
            ((∀ b ∈ T.root, minPrec ≤ b.prec) → ∀ b ∈ T'.root, minPrec ≤ b.prec)
        | none => ∃ ls u, Links O m s.bare ls u ∧ Broken O m u

variable {O}

/-- The functions of two circles do the same. -/
class RecLocal (O : outParam Operands) (d : Option Int) (r r' : Rec) : Prop where
  expr : ∀ pre pre', Local pre pre' d r.expr r'.expr
  type : ∀ pre pre', Local pre pre' d r.type r'.type
  unary : ∀ pre pre', Local pre pre' d r.unary r'.unary
  stmt : ∀ pre pre', Local pre pre' d r.stmt.p r'.stmt.p
  decl : ∀ pre pre', Local pre pre' d r.decl r'.decl
  typeKind : Returns r.type fun form => isOtherKind form.syntaxKind
  declKind : Returns r.decl isOtherKind
  operand : ∀ {pre m s t}, Above pre d s [] → r.unary.run m s = some (some (), t) →
    ∃ e, IsOperand e ∧ Above pre d t [e] ∧ O.reads m s.bare e t.bare
  operandFails : ∀ {pre m s t}, Above pre d s [] → r.unary.run m s = some (none, t) →
    O.fails m s.bare
  binaryRhs : ∀ pre pre' minPrec,
    Climbs O d pre pre' minPrec (r.binaryRhs pre.length minPrec) (r'.binaryRhs pre'.length minPrec)

variable {d : Option Int} {r r' : Rec}

/-! ## One right operand -/

/-- Behind an operator: an operand, the tighter operators and their operands, and the policy of a
division. -/
def rightOperand (r : Rec) (rightCp : Nat) (op : TokenKind) : P Unit := do
  r.unary
  loop (tighterRhs r rightCp (binopPrec op + 1))
  divPolicy op

theorem binaryStep_eq (r : Rec) (leftCp minPrec : Nat) (m : Mode) (s : Parser) :
    (binaryStep r leftCp minPrec).run m s =
      if bindsAt minPrec s.current.kind = true then
        match (rightOperand r s.advance.items.length s.current.kind).run m s.advance with
        | none => none
        | some (none, t) => some (none, t)
        | some (some (), t) => some (some true, t.wrap leftCp .binaryExpr)
      else some (some false, s) := by
  have hask : (binaryStep r leftCp minPrec).run m s = (do
      if ← matchIf (bindsAt minPrec) (by simp [bindsAt, binopPrec]) then
        let rightCp ← checkpoint
        r.unary
        loop (tighterRhs r rightCp (binopPrec s.current.kind + 1))
        divPolicy s.current.kind
        wrap leftCp .binaryExpr
        return true
      else return false : P Bool).run m s := rfl
  rw [hask, bind_run]
  cases hk : bindsAt minPrec s.current.kind with
  | false =>
    rw [matchIf_false hk]
    rfl
  | true =>
    rw [matchIf_true hk]
    dsimp only
    rw [if_pos rfl, if_pos rfl]
    rw [checkpoint_run]
    unfold rightOperand
    simp only [bind_run]
    rcases r.unary.run m s.advance with _ | ⟨_ | _, v⟩
    · rfl
    · rfl
    dsimp only
    rcases (loop _).run m v with _ | ⟨_ | _, w⟩
    · rfl
    · rfl
    dsimp only
    rcases (divPolicy _).run m w with _ | ⟨_ | _, x⟩ <;> rfl

theorem binopPrec_le (k : TokenKind) : binopPrec k ≤ 5 := by
  cases k <;> decide

theorem bindsAt_iff {minPrec : Nat} {k : TokenKind} :
    bindsAt minPrec k = true ↔ 0 < binopPrec k ∧ minPrec ≤ binopPrec k := by
  simp [bindsAt]

/-- Only the tightest operators take a policy. -/
theorem divPolicy_idle {op : TokenKind} (h : binopPrec op ≠ 5) (m : Mode) (s : Parser) :
    (divPolicy op).run m s = some (some (), s) := by
  have hdiv : (op == .slash || op == .percent) = false := by
    cases op <;> first | rfl | exact absurd rfl h
  unfold divPolicy
  rw [hdiv]
  rfl

theorem tighterRhs_run (r : Rec) (rightCp minPrec : Nat) (m : Mode) (s : Parser) :
    (tighterRhs r rightCp minPrec).run m s =
      if bindsAt minPrec s.current.kind = true then
        match (r.binaryRhs rightCp minPrec).run m s with
        | none => none
        | some (none, t) => some (none, t)
        | some (some (), t) => some (some true, t)
      else some (some false, s) := by
  have hask : (tighterRhs r rightCp minPrec).run m s =
      (if bindsAt minPrec s.current.kind = true then do
        r.binaryRhs rightCp minPrec
        return true
      else return false : P Bool).run m s := rfl
  rw [hask]
  split
  · rw [bind_run]
    rcases (r.binaryRhs rightCp minPrec).run m s with _ | ⟨_ | _, t⟩ <;> rfl
  · rfl

/-- At no tighter operator the loop of the right operand does nothing. -/
theorem tighter_idle {minPrec : Nat} {s : Parser} (h : bindsAt minPrec s.current.kind = false)
    (r : Rec) (rightCp : Nat) (m : Mode) :
    (loop (tighterRhs r rightCp minPrec)).run m s = some (some (), s) := by
  rw [loop_run, tighterRhs_run, if_neg (by simp [h])]

instance {pre pre' : List Elem} (op : TokenKind) :
    Local pre pre' d (divPolicy op) (divPolicy op) := by
  unfold divPolicy
  infer_instance

theorem bare_advance_bare (s : Parser) : s.bare.advance.bare = s.advance.bare := by
  obtain ⟨new, hadv⟩ := advance_appends s
  have hbare := congrArg bare (hadv.run [])
  exact hbare

/-- At a tighter operator the loop of the right operand hands over to `parse_binary_rhs`. -/
theorem tighter_run {minPrec : Nat} {s : Parser} {rightCp : Nat}
    (h : bindsAt minPrec s.current.kind = true) :
    (loop (tighterRhs r rightCp minPrec)).run m s =
      match (r.binaryRhs rightCp minPrec).run m s with
      | none => none
      | some (none, t) => some (none, t)
      | some (some (), t) =>
        if t.unread < s.unread then (loop (tighterRhs r rightCp minPrec)).run m t else none := by
  rw [loop_run, tighterRhs_run, if_pos h]
  rcases (r.binaryRhs rightCp minPrec).run m s with _ | ⟨_ | _, t⟩ <;> rfl

section

variable {pre : List Elem} (pre' : List Elem) {s u x : Parser} {o : Option Unit}

/-- How a right operand ends, read behind the operator at `s`. -/
def RightEnd (O : Operands) (m : Mode) (s x : Parser) (ys : List Elem) : Option Unit → Prop
  | some () => ∃ R pol, ys = treeElem R :: pol ∧ Grammatical R ∧ climbedAll pol = true ∧
      (∀ b ∈ R.root, binopPrec s.current.kind < b.prec) ∧
      Links O m s.bare
        ((⟨s.current.kind, s.bare.advance.items, pol⟩, R.first) :: R.links) x.bare ∧
      binopPrec x.current.kind ≤ binopPrec s.current.kind
  | none => ∃ ls w, Links O m s.bare ls w ∧ Broken O m w

/-- The policy of a division, right behind its operand. -/
theorem policy_spec {v : Parser} {e : Elem} (hbinds : bindsAt 1 s.current.kind = true)
    (hread : O.reads m s.advance.bare e v.bare) (he : IsOperand e) (hv : Above pre d v [e])
    (hidle : bindsAt (binopPrec s.current.kind + 1) v.current.kind = false)
    (h : (divPolicy s.current.kind).run m v = some (o, x)) :
    ∃ ys, Above pre d x ys ∧ Grows v [e] x ys ∧
      (divPolicy s.current.kind).run m (v.withItems (pre' ++ [e])) =
        some (o, x.withItems (pre' ++ ys)) ∧ RightEnd O m s x ys o := by
  have hv' : Above (pre ++ [e]) d v [] := above_append.mpr (by simpa using hv)
  have hbeside : Local (pre ++ [e]) (pre' ++ [e]) d (divPolicy s.current.kind)
      (divPolicy s.current.kind) := inferInstance
  have hbare : Local (pre ++ [e]) [] d (divPolicy s.current.kind) (divPolicy s.current.kind) :=
    inferInstance
  obtain ⟨pol, hpol, hgrow, hrun⟩ := hbeside.fresh hv' h
  obtain ⟨pol', hpol', -, hrun'⟩ := hbare.fresh hv' h
  obtain rfl := hpol.cancel hpol'
  refine ⟨[e] ++ pol, above_append.mp hpol, by simpa using hgrow.frame [e],
    by rw [hrun, List.append_assoc], ?_⟩
  have hcur : s.bare.current.kind = s.current.kind := rfl
  rw [← bare_advance_bare] at hread
  cases o with
  | none =>
    exact ⟨[], s.bare, .nil _, hbinds, Or.inr ⟨e, v.bare, _, hread, hrun'⟩⟩
  | some _ =>
    refine ⟨.leaf e, pol, rfl, ⟨he, trivial⟩, hgrow.climbed rfl, nofun, ?_, ?_⟩
    · exact .cons (s := s.bare) hbinds hread hrun' (.nil _)
    · -- a division is the tightest operator, and the others left the state alone
      by_cases hdiv : binopPrec s.current.kind = 5
      · rw [hdiv]
        exact binopPrec_le _
      · rw [divPolicy_idle hdiv] at h
        cases h
        rw [← Bool.not_eq_true, bindsAt_iff] at hidle
        omega

/-- The tighter operators behind an operand, which is then not the operand of a division. -/
theorem tighter_spec (hr : RecLocal O d r r') {v : Parser} {e : Elem}
    (hbinds : bindsAt 1 s.current.kind = true)
    (hread : O.reads m s.advance.bare e v.bare) (he : IsOperand e) (hv : Above pre d v [e])
    (htight : bindsAt (binopPrec s.current.kind + 1) v.current.kind = true)
    (h : (do
      loop (tighterRhs r pre.length (binopPrec s.current.kind + 1))
      divPolicy s.current.kind).run m v = some (o, x)) :
    ∃ ys, Above pre d x ys ∧ Grows v [e] x ys ∧
      (do
        loop (tighterRhs r' pre'.length (binopPrec s.current.kind + 1))
        divPolicy s.current.kind).run m (v.withItems (pre' ++ [e])) =
          some (o, x.withItems (pre' ++ ys)) ∧ RightEnd O m s x ys o := by
  have hdiv : binopPrec s.current.kind ≠ 5 := by
    have hlt := (bindsAt_iff.mp htight).2
    have hle := binopPrec_le v.current.kind
    omega
  have hidle : ∀ t, (divPolicy s.current.kind).run m t = some (some (), t) :=
    divPolicy_idle hdiv m
  have htight' : bindsAt (binopPrec s.current.kind + 1)
      (v.withItems (pre' ++ [e])).current.kind = true := htight
  rw [← bare_advance_bare] at hread
  have hlink : ∀ {ls t}, Links O m v.bare ls t →
      Links O m s.bare ((⟨s.current.kind, s.bare.advance.items, []⟩, e) :: ls) t :=
    fun hls => .cons (s := s.bare) hbinds hread (hidle _) hls
  cases hrhs : (r.binaryRhs pre.length (binopPrec s.current.kind + 1)).run m v with
  | none =>
    rw [bind_run, tighter_run htight, hrhs] at h
    cases h
  | some res =>
    obtain ⟨o', w⟩ := res
    obtain ⟨ys, hys, hgrow, hrun, hend⟩ :=
      hr.binaryRhs pre pre' _ (T := .leaf e) hv ⟨he, trivial⟩ (fun _ => nofun) hrhs
    have hloop : (loop (tighterRhs r' pre'.length (binopPrec s.current.kind + 1))).run m
        (v.withItems (pre' ++ [e])) = _ := tighter_run htight'
    have hleaf : treeElem (.leaf e) = e := by rw [treeElem]
    rw [hleaf] at hgrow hrun
    rw [hrun] at hloop
    rw [bind_run, tighter_run htight, hrhs] at h
    cases o' with
    | none =>
      cases h
      obtain ⟨ls, u, hlinks, hbroken⟩ := hend
      exact ⟨ys, hys, hgrow, by rw [bind_run, hloop], _, u, hlink hlinks, hbroken⟩
    | some _ =>
      obtain ⟨R, ls, rfl, hR, hfirst, hls, hlinks, hstop, hroot⟩ := hend
      dsimp only at h hloop
      by_cases hlt : w.unread < v.unread
      · rw [if_pos hlt, tighter_idle hstop] at h
        rw [withItems_unread, withItems_unread, if_pos hlt,
          tighter_idle (s := w.withItems (pre' ++ [treeElem R])) hstop] at hloop
        dsimp only at h
        rw [hidle] at h
        cases h
        refine ⟨_, hys, hgrow, ?_, R, [], rfl, hR, rfl, ?_, ?_, ?_⟩
        · rw [bind_run, hloop]
          exact hidle _
        · exact fun b hb => hroot nofun b hb
        · rw [hfirst, hls]
          exact hlink hlinks
        · rw [← Bool.not_eq_true, bindsAt_iff] at hstop
          omega
      · rw [if_neg hlt] at h
        cases h

theorem rightOperand_spec (hr : RecLocal O d r r') (hbinds : bindsAt 1 s.current.kind = true)
    (hu : Above pre d u []) (hbare : u.bare = s.advance.bare)
    (h : (rightOperand r pre.length s.current.kind).run m u = some (o, x)) :
    ∃ ys, Above pre d x ys ∧ Grows u [] x ys ∧
      (rightOperand r' pre'.length s.current.kind).run m (u.withItems pre') =
        some (o, x.withItems (pre' ++ ys)) ∧ RightEnd O m s x ys o := by
  unfold rightOperand at h ⊢
  rw [bind_run] at h
  rw [bind_run]
  cases hun : r.unary.run m u with
  | none =>
    rw [hun] at h
    cases h
  | some res =>
    obtain ⟨o', v⟩ := res
    obtain ⟨ys, hys, hgrow, hrun⟩ := (hr.unary pre pre').fresh hu hun
    rw [hun] at h
    rw [hrun]
    cases o' with
    | none =>
      cases h
      have hfails := hr.operandFails hu hun
      rw [hbare, ← bare_advance_bare] at hfails
      exact ⟨ys, hys, hgrow, rfl, [], s.bare, .nil _, hbinds, Or.inl hfails⟩
    | some _ =>
      obtain ⟨e, he, hv, hread⟩ := hr.operand hu hun
      obtain rfl := hys.cancel hv
      rw [hbare] at hread
      dsimp only at h ⊢
      have hend : ∃ ys, Above pre d x ys ∧ Grows v [e] x ys ∧
          (do
            loop (tighterRhs r' pre'.length (binopPrec s.current.kind + 1))
            divPolicy s.current.kind).run m (v.withItems (pre' ++ [e])) =
              some (o, x.withItems (pre' ++ ys)) ∧ RightEnd O m s x ys o := by
        cases htight : bindsAt (binopPrec s.current.kind + 1) v.current.kind with
        | true => exact tighter_spec pre' hr hbinds hread he hv htight h
        | false =>
          rw [bind_run, tighter_idle htight] at h
          rw [bind_run, tighter_idle (s := v.withItems (pre' ++ [e])) htight]
          exact policy_spec pre' hbinds hread he hv htight h
      obtain ⟨ys, hys, hgrow', hrun', hend⟩ := hend
      exact ⟨ys, hys, hgrow.trans hgrow', hrun', hend⟩

/-! ## A round, and the loop -/

/-- The operator token, behind which only comments stand. -/
theorem operator_join {minPrec : Nat} (hbinds : bindsAt minPrec s.current.kind = true) :
    ∃ w x y z cs, s.bare.advance.items = .token s.current.kind w x y z :: cs ∧
      ∀ e ∈ cs, isComment e = true := by
  obtain ⟨took, cs, hitems, hcs, htook⟩ := advance_items s.bare
  have hkind : s.bare.current.kind = s.current.kind := rfl
  rw [hkind] at htook
  rcases htook with ⟨-, hend⟩ | ⟨w, x, y, z, rfl⟩
  · have hpos := (bindsAt_iff.mp hbinds).1
    rcases hend with hend | hend <;> rw [hend] at hpos <;> cases hpos
  · exact ⟨w, x, y, z, cs, hitems, hcs⟩

/-- How a round at an operator ends that began at `s` with the tree `T`. -/
def RoundEnd (O : Operands) (m : Mode) (s : Parser) (T : Tree Elem Link) (minPrec : Nat)
    (t : Parser) (ys : List Elem) : Option Bool → Prop
  | some again => again = true ∧ ∃ T' ls, ys = [treeElem T'] ∧ Grammatical T' ∧
      T'.first = T.first ∧ T'.links = T.links ++ ls ∧ Links O m s.bare ls t.bare ∧
      ∀ c ∈ T'.root, binopPrec t.current.kind ≤ c.prec ∧ minPrec ≤ c.prec
  | none => ∃ ls u, Links O m s.bare ls u ∧ Broken O m u

/-- One round at an operator wraps the tree, the operator and the right operand together. -/
theorem binaryStep_spec (hr : RecLocal O d r r') {t : Parser} {T : Tree Elem Link} {minPrec : Nat}
    {b : Option Bool}
    (hs : Above pre d s [treeElem T]) (hT : Grammatical T)
    (hbinds : bindsAt minPrec s.current.kind = true)
    (hfits : ∀ c ∈ T.root, binopPrec s.current.kind ≤ c.prec)
    (h : (binaryStep r pre.length minPrec).run m s = some (b, t)) :
    ∃ ys, Above pre d t ys ∧ Grows s [treeElem T] t ys ∧
      (binaryStep r' pre'.length minPrec).run m (s.withItems (pre' ++ [treeElem T])) =
        some (b, t.withItems (pre' ++ ys)) ∧ RoundEnd O m s T minPrec t ys b := by
  obtain ⟨hpos, hmin⟩ := bindsAt_iff.mp hbinds
  have hone : bindsAt 1 s.current.kind = true := bindsAt_iff.mpr ⟨hpos, hpos⟩
  obtain ⟨new, hadv⟩ := advance_appends s
  have hu : Above (pre ++ ([treeElem T] ++ new)) d s.advance [] :=
    above_append.mpr (by simpa using hadv.above hs)
  have hlen : s.advance.items.length = (pre ++ ([treeElem T] ++ new)).length := by
    rw [hu.items, List.append_nil]
  have hu' : (s.withItems (pre' ++ [treeElem T])).advance =
      s.advance.withItems (pre' ++ ([treeElem T] ++ new)) := by
    rw [hadv.run, List.append_assoc]
  have hjoin : s.bare.advance.items = new := congrArg items (hadv.run [])
  rw [binaryStep_eq, if_pos hbinds, hlen] at h
  rw [binaryStep_eq, hu', withItems_items, withItems_current, if_pos hbinds]
  cases hright : (rightOperand r (pre ++ ([treeElem T] ++ new)).length s.current.kind).run m
      s.advance with
  | none =>
    rw [hright] at h
    cases h
  | some res =>
    obtain ⟨o', x⟩ := res
    obtain ⟨ys, hys, hgrow, hrun, hend⟩ :=
      rightOperand_spec (pre' ++ ([treeElem T] ++ new)) hr hone hu rfl hright
    have hgrow' : Grows s [treeElem T] x ([treeElem T] ++ new ++ ys) :=
      (hadv.grows [treeElem T]).trans (by simpa using hgrow.frame ([treeElem T] ++ new))
    have hx : Above pre d x ([treeElem T] ++ new ++ ys) := above_append.mp hys
    rw [hright] at h
    rw [hrun]
    cases o' with
    | none =>
      cases h
      exact ⟨_, hx, hgrow', by rw [List.append_assoc], hend⟩
    | some _ =>
      cases h
      obtain ⟨R, pol, rfl, hR, hpol, hroot, hlinks, hnext⟩ := hend
      let link : Link := ⟨s.current.kind, s.bare.advance.items, pol⟩
      have hlink : link.Sound := ⟨hpos, operator_join hbinds, hpol⟩
      have hT' : Grammatical (.node T link R) :=
        ⟨⟨hT.all, hlink, hR.all⟩, hT.ordered, hR.ordered, hfits, hroot⟩
      have hnode : Elem.node .binaryExpr ([treeElem T] ++ new ++ treeElem R :: pol) =
          treeElem (.node T link R) := by
        simp [treeElem, link, hjoin]
      have hwrap : ∀ qs : List Elem,
          (x.withItems (qs ++ ([treeElem T] ++ new ++ treeElem R :: pol))).wrap qs.length
            .binaryExpr = x.withItems (qs ++ [treeElem (.node T link R)]) := by
        intro qs
        have hpos : ¬ ([treeElem T] ++ new ++ treeElem R :: pol).length ≤ 0 := by simp
        have hrun := wrap_withItems qs x hpos .binaryExpr
        rw [← hnode]
        simpa using hrun
      have hwrap_pre := hwrap pre
      rw [← hx.items, withItems_self] at hwrap_pre
      rw [hwrap_pre]
      refine ⟨[treeElem (.node T link R)], ⟨rfl, hx.depth⟩, ⟨fun _ => ?_, ?_⟩, ?_, rfl,
        .node T link R, (link, R.first) :: R.links, rfl, hT', rfl, rfl, hlinks, ?_⟩
      · simp [climbedAll, hT'.climbed]
      · obtain ⟨ls, hls, hcons⟩ := hgrow'.leaves
        refine ⟨ls, ?_, hcons.flagged, hcons.tokens⟩
        rw [← hls, ← hnode]
        simp [leavesOf, Elem.leaves]
      · rw [withItems_withItems, ← hwrap pre', List.append_assoc, List.append_assoc]
      · rintro c ⟨⟩
        exact ⟨hnext, hmin⟩

theorem parseBinaryRhs_climbs (hr : RecLocal O d r r') (pre pre' : List Elem) (minPrec : Nat) :
    Climbs O d pre pre' minPrec (parseBinaryRhs r pre.length minPrec)
      (parseBinaryRhs r' pre'.length minPrec) := by
  unfold parseBinaryRhs
  intro m s
  induction hn : s.unread using Nat.strongRecOn generalizing s with
  | ind n ih =>
    intro o t T hs hT hfits h
    cases hbinds : bindsAt minPrec s.current.kind with
    | false =>
      rw [loop_run, binaryStep_eq, if_neg (by simp [hbinds])] at h
      cases h
      refine ⟨[treeElem T], hs, .refl _ _, ?_, T, [], rfl, hT, rfl, by simp, .nil _, hbinds, id⟩
      rw [loop_run, binaryStep_eq, if_neg (by simp [hbinds])]
    | true =>
      rw [loop_run] at h
      rw [loop_run]
      cases hstep : (binaryStep r pre.length minPrec).run m s with
      | none =>
        rw [hstep] at h
        cases h
      | some res =>
        obtain ⟨b, u⟩ := res
        obtain ⟨ys, hys, hgrow, hrun, hend⟩ :=
          binaryStep_spec pre' hr hs hT hbinds (hfits hbinds) hstep
        rw [hstep] at h
        rw [hrun]
        cases b with
        | none =>
          cases h
          exact ⟨ys, hys, hgrow, rfl, hend⟩
        | some again =>
          obtain ⟨rfl, T', ls, rfl, hT', hfirst, hlinks, hread, hroot⟩ := hend
          dsimp only at h ⊢
          by_cases hlt : u.unread < s.unread
          · rw [if_pos hlt] at h
            rw [withItems_unread, withItems_unread, if_pos hlt]
            obtain ⟨zs, hzs, hgrow', hrun', hend'⟩ :=
              ih u.unread (hn ▸ hlt) rfl hys hT' (fun _ c hc => (hroot c hc).1) h
            refine ⟨zs, hzs, hgrow.trans hgrow', hrun', ?_⟩
            cases o with
            | none =>
              obtain ⟨ls', v, hread', hbroken⟩ := hend'
              exact ⟨ls ++ ls', v, hread.append hread', hbroken⟩
            | some _ =>
              obtain ⟨T'', ls', rfl, hT'', hfirst', hlinks', hread', hstop, hroot'⟩ := hend'
              refine ⟨T'', ls ++ ls', rfl, hT'', hfirst'.trans hfirst, ?_, hread.append hread',
                hstop, fun _ => hroot' fun c hc => (hroot c hc).2⟩
              rw [hlinks', hlinks, List.append_assoc]
          · rw [if_neg hlt] at h
            cases h

end

end Arche.Syntax
