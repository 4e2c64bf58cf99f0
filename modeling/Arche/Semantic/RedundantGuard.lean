import Arche.Lib.Path
import Arche.Semantic.Bounds
import Mathlib.Data.Int.Order.Basic
import Mathlib.Data.List.TakeWhile

/-!
# The guard that a loop condition makes redundant

`bnd_lint_loop_cond_guards` looks at the `if`s a loop body starts with, as long as there is a
`return`, `break` or `continue` among the statements of each. It flags those whose condition is the
complement of the loop condition, of the same variable and bound.

* The meaning of a program is that of a `Machine`: any states, any statements but the `if`s and the
  exits, and any conditions but the comparison of a name with a name, a number or a length. The
  values are ordered, or not a number.
* `Tops` are the states in which a run of the loop begins its body.

1. `flagged_redundant`: a flagged guard is never true, and the loop runs the same without it, if in
   each round the guards before it leave, or go on and leave variable and bound as they are, two
   numbers are the same, and the guard has no else part that does something.
2. `not_flagged_redundant`: a guard with its exit in the else part may go on with another variable.
-/

namespace Arche.Semantic.Bounds.RedundantGuard

open Arche.Lib

/-! ## The lint -/

/-- `bnd_body_exits`: the statements of both parts. -/
def bodyExits : Stmt → Bool
  | .ite _ thn els => (thn ++ els).any Stmt.isExit
  | _ => false

def isRelational : Op → Bool
  | .lt | .lte | .gt | .gte => true
  | _ => false

/-- `bnd_cmp_parts`. -/
def cmpParts : Expr → Option (String × Op × Expr)
  | .binary op l r _ => if isRelational op then (plainName? l).map fun v => (v, op, r) else none
  | _ => none

/-- `bnd_is_complement`. -/
def isComplement : Op → Op → Bool
  | .lt, .gte | .lte, .gt | .gt, .lte | .gte, .lt => true
  | _, _ => false

/-- `bnd_view_same`. -/
def viewSame (a b : Expr) : Bool :=
  match plainName? a, plainName? b with
  | some x, some y => x == y
  | _, _ =>
    match litInt? a, litInt? b with
    | some m, some n => m == n
    | _, _ =>
      match a, b with
      | .extent x p, .extent y q => x == y && p == q
      | _, _ => false

/-- The condition of the `if` is the complement of the comparison. -/
def retests (parts : String × Op × Expr) : Stmt → Bool
  | .ite cond _ _ =>
    match cmpParts cond with
    | some (v, op, bound) =>
      parts.1 == v && isComplement parts.2.1 op && viewSame parts.2.2 bound
    | none => false
  | _ => false

/-- `bnd_lint_loop_cond_guards`: the positions it reports. -/
def lintLoopCondGuards (cond : Expr) (body : List Stmt) : List Nat :=
  match cmpParts cond with
  | none => []
  | some parts => (List.range (body.takeWhile bodyExits).length).filter fun i =>
      (body[i]?).any (retests parts)

/-! ## Runs -/

/-- What a program runs on. `scopeEnd s s'` is `s'` without the variables declared since `s`. -/
structure Machine (σ α : Type) where
  name : σ → String → Option α
  extent : σ → String → Extent → Option α
  number : Nat → Option α
  condition : Expr → σ → Bool → σ → Prop
  statement : Stmt → σ → Outcome → σ → Prop
  scopeEnd : σ → σ → σ
  scopeEnd_self : ∀ s, scopeEnd s s = s

section Runs

variable {σ α : Type} [LinearOrder α] (M : Machine σ α)

/-- An operand of a comparison; `none` is not a number. -/
def Machine.value (s : σ) : Expr → Option α
  | .name x => M.name s x
  | .extent x p => M.extent s x p
  | .lit n => M.number n
  | _ => none

def isOperand : Expr → Bool
  | .name _ | .extent _ _ | .lit _ => true
  | _ => false

def holds : Op → Option α → Option α → Bool
  | .lt, some a, some b => decide (a < b)
  | .lte, some a, some b => decide (a ≤ b)
  | .gt, some a, some b => decide (b < a)
  | .gte, some a, some b => decide (b ≤ a)
  | _, _, _ => false

/-- A condition is evaluated to `b`. -/
def Tests (e : Expr) (s : σ) (b : Bool) (s' : σ) : Prop :=
  match cmpParts e with
  | some (v, op, bound) =>
    if isOperand bound then s' = s ∧ b = holds op (M.name s v) (M.value s bound)
    else M.condition e s b s'
  | none => M.condition e s b s'

def isIf : Stmt → Bool
  | .ite _ _ _ => true
  | _ => false

/-- How an exit leaves. -/
def exitOutcome : Stmt → Option Outcome
  | .ret _ => some .returned
  | .brk => some .broke
  | .cont => some .continued
  | _ => none

mutual

inductive Runs : Stmt → σ → Outcome → σ → Prop
  | ite {cond : Expr} {thn els : List Stmt} {s s₁ s' : σ} {b : Bool} {o : Outcome} :
      Tests M cond s b s₁ → RunsAll (if b then thn else els) s₁ o s' →
      Runs (.ite cond thn els) s o (M.scopeEnd s₁ s')
  | exit {st : Stmt} {s s' : σ} {o : Outcome} : exitOutcome st = some o → Runs st s o s'
  | other {st : Stmt} {s s' : σ} {o : Outcome} :
      isIf st = false → exitOutcome st = none → M.statement st s o s' → Runs st s o s'

inductive RunsAll : List Stmt → σ → Outcome → σ → Prop
  | done {s : σ} : RunsAll [] s .normal s
  | next {st : Stmt} {rest : List Stmt} {s s₁ s' : σ} {o : Outcome} :
      Runs st s .normal s₁ → RunsAll rest s₁ o s' → RunsAll (st :: rest) s o s'
  | leave {st : Stmt} {rest : List Stmt} {s s' : σ} {o : Outcome} :
      Runs st s o s' → o ≠ .normal → RunsAll (st :: rest) s o s'

end

/-- The states at the top of the body, of a run of the loop from `s₀`. -/
inductive Tops (init : List Stmt) (cond : Expr) (incr body : List Stmt) (s₀ : σ) : σ → Prop
  | first {s₁ s : σ} : RunsAll M init s₀ .normal s₁ → Tests M cond s₁ true s →
      Tops init cond incr body s₀ s
  | again {s s₁ s₂ s₃ : σ} {o : Outcome} : Tops init cond incr body s₀ s → RunsAll M body s o s₁ →
      o = .normal ∨ o = .continued → RunsAll M incr (M.scopeEnd s s₁) .normal s₂ →
      Tests M cond s₂ true s₃ → Tops init cond incr body s₀ s₃

/-! ## What it is for -/

/-- In the round that begins in `s`, the guard at `i` is never true, and the body runs the same
without it. -/
structure Redundant (body : List Stmt) (i : Nat) (s : σ) : Prop where
  never : ∀ cond thn els s' s'', body[i]? = some (.ite cond thn els) →
    RunsAll M (body.take i) s .normal s' → ¬ Tests M cond s' true s''
  deletable : ∀ o s', RunsAll M (body.eraseIdx i) s o s' ↔ RunsAll M body s o s'

/-- The part leaves, or goes on with the operands as they were. -/
def Keeps (x : String) (bound : Expr) (part : List Stmt) : Prop :=
  part.any Stmt.isExit = true ∨ ∀ s s', RunsAll M part s .normal s' →
    M.name (M.scopeEnd s s') x = M.name s x ∧ M.value (M.scopeEnd s s') bound = M.value s bound

/-- What is evaluated and run of a guard in `s`. -/
def Harmless (x : String) (bound : Expr) (st : Stmt) (s : σ) : Prop :=
  ∀ cond thn els, st = .ite cond thn els → ∀ b s', Tests M cond s b s' →
    M.name s' x = M.name s x ∧ M.value s' bound = M.value s bound ∧
      Keeps M x bound (if b then thn else els)

/-- The condition for the guard at `i` in the round that begins in `s`. -/
structure Meets (cond : Expr) (body : List Stmt) (i : Nat) (s : σ) : Prop where
  earlier : ∀ x op bound, cmpParts cond = some (x, op, bound) → ∀ j < i, ∀ st, body[j]? = some st →
    ∀ s', RunsAll M (body.take j) s .normal s' → Harmless M x bound st s'
  sameNumber : ∀ x op m c thn els y op' n, cmpParts cond = some (x, op, .lit m) →
    body[i]? = some (.ite c thn els) → cmpParts c = some (y, op', .lit n) → m = n
  elsePart : ∀ c thn els, body[i]? = some (.ite c thn els) →
    ∀ s' o s'', RunsAll M els s' o s'' ↔ o = .normal ∧ s'' = s'

/-! ## What the lint compares -/

/-- Two views are the same only if they are the same operand, or two numbers. -/
theorem viewSame_operand {a b : Expr} (h : viewSame a b = true) :
    isOperand b = true ∧ (a = b ∨ ∃ m n, a = .lit m ∧ b = .lit n) := by
  unfold viewSame at h
  split at h
  · next x y hx hy =>
    cases a <;> cases hx
    cases b <;> cases hy
    exact ⟨rfl, .inl (congrArg Expr.name (eq_of_beq h))⟩
  · split at h
    · next m n hm hn =>
      cases a <;> simp only [litInt?, reduceCtorEq] at hm
      cases b <;> simp only [litInt?, reduceCtorEq] at hn
      exact ⟨rfl, .inr ⟨_, _, rfl, rfl⟩⟩
    · split at h
      · obtain ⟨hx, hp⟩ := Bool.and_eq_true_iff.mp h
        rw [eq_of_beq hx, eq_of_beq hp]
        exact ⟨rfl, .inl rfl⟩
      · cases h

theorem mem_lint_iff {cond : Expr} {body : List Stmt} {i : Nat} :
    i ∈ lintLoopCondGuards cond body ↔ ∃ parts, cmpParts cond = some parts ∧
      i < (body.takeWhile bodyExits).length ∧
        ∃ st, body[i]? = some st ∧ retests parts st = true := by
  unfold lintLoopCondGuards
  cases cmpParts cond with
  | none => simp
  | some parts => simp [List.mem_filter, Option.any_eq_true]

/-- What is reported repeats the condition of the loop. -/
theorem retests_spec {x : String} {op : Op} {bound : Expr} {st : Stmt}
    (h : retests (x, op, bound) st = true) :
    ∃ c thn els op' bound', st = .ite c thn els ∧ cmpParts c = some (x, op', bound') ∧
      isComplement op op' = true ∧ viewSame bound bound' = true := by
  unfold retests at h
  split at h
  · next c thn els =>
    split at h
    · next v op' bound' hparts =>
      simp only [Bool.and_eq_true, beq_iff_eq] at h
      obtain ⟨⟨rfl, hop⟩, hbound⟩ := h
      exact ⟨c, thn, els, op', bound', rfl, hparts, hop, hbound⟩
    · cases h
  · cases h

theorem holds_complement {op op' : Op} {a b : Option α} (hop : isComplement op op' = true)
    (h : holds op a b = true) : holds op' a b = false := by
  cases a with
  | none => cases op <;> cases h
  | some a =>
    cases b with
    | none => cases op <;> cases h
    | some b => cases op <;> cases op' <;> simp_all [holds, isComplement]

/-! ## Runs of a list -/

variable {M}

theorem Runs.not_normal {st : Stmt} {s s' : σ} {o : Outcome} (h : Runs M st s o s')
    (hexit : st.isExit = true) : o ≠ .normal := by
  rintro rfl
  cases h with
  | ite => cases hexit
  | exit ho => cases st <;> cases ho
  | other _ ho =>
    cases st <;> simp only [Stmt.isExit, exitOutcome, reduceCtorEq, Bool.false_eq_true] at hexit ho

/-- With an exit among its statements a list does not go on behind it. -/
theorem RunsAll.not_normal {part : List Stmt} {s s' : σ} {o : Outcome} (h : RunsAll M part s o s')
    (hexit : part.any Stmt.isExit = true) : o ≠ .normal := by
  induction part generalizing s with
  | nil => cases hexit
  | cons st rest ih =>
    cases h with
    | next hst hrest =>
      rcases Bool.or_eq_true_iff.mp (List.any_cons.symm.trans hexit) with hfirst | hlater
      · exact absurd rfl (hst.not_normal hfirst)
      · exact ih hrest hlater
    | leave _ ho => exact ho

theorem runsAll_append {pre rest : List Stmt} {s s' : σ} {o : Outcome} :
    RunsAll M (pre ++ rest) s o s' ↔
      (∃ m, RunsAll M pre s .normal m ∧ RunsAll M rest m o s') ∨
        o ≠ .normal ∧ RunsAll M pre s o s' := by
  induction pre generalizing s with
  | nil =>
    constructor
    · exact fun h => .inl ⟨s, .done, h⟩
    · rintro (⟨m, hpre, hrest⟩ | ⟨ho, hpre⟩)
      · cases hpre
        exact hrest
      · cases hpre
        exact absurd rfl ho
  | cons st pre ih =>
    constructor
    · intro h
      cases h with
      | next hst htail =>
        rcases ih.mp htail with ⟨m, hpre, hrest⟩ | ⟨ho, hpre⟩
        · exact .inl ⟨m, .next hst hpre, hrest⟩
        · exact .inr ⟨ho, .next hst hpre⟩
      | leave hst ho => exact .inr ⟨ho, .leave hst ho⟩
    · rintro (⟨m, hpre, hrest⟩ | ⟨ho, hpre⟩)
      · cases hpre with
        | next hst htail => exact .next hst (ih.mpr (.inl ⟨m, htail, hrest⟩))
        | leave _ ho => exact absurd rfl ho
      · cases hpre with
        | next hst htail => exact .next hst (ih.mpr (.inr ⟨ho, htail⟩))
        | leave hst _ => exact .leave hst ho

/-- A statement that does nothing can be left out. -/
theorem runsAll_cons_skip {st : Stmt} {rest : List Stmt} {m s' : σ} {o : Outcome}
    (hskip : ∀ o s', Runs M st m o s' ↔ o = .normal ∧ s' = m) :
    RunsAll M (st :: rest) m o s' ↔ RunsAll M rest m o s' := by
  constructor
  · intro h
    cases h with
    | next hst hrest =>
      obtain ⟨-, rfl⟩ := (hskip _ _).mp hst
      exact hrest
    | leave hst ho => exact absurd ((hskip _ _).mp hst).1 ho
  · exact fun h => .next ((hskip _ _).mpr ⟨rfl, rfl⟩) h

/-! ## A round -/

section Round

variable {cond : Expr} {body : List Stmt} {i : Nat} {s : σ} {x : String} {op : Op} {bound : Expr}

/-- At the top of the body the condition holds. -/
theorem tests_true {s₁ : σ} (hparts : cmpParts cond = some (x, op, bound))
    (hoperand : isOperand bound = true) (h : Tests M cond s₁ true s) :
    s = s₁ ∧ holds op (M.name s x) (M.value s bound) = true := by
  simp only [Tests, hparts, if_pos hoperand] at h
  obtain ⟨rfl, hholds⟩ := h
  exact ⟨rfl, hholds.symm⟩

theorem Tops.holds {init incr : List Stmt} {s₀ : σ} (h : Tops M init cond incr body s₀ s)
    (hparts : cmpParts cond = some (x, op, bound)) (hoperand : isOperand bound = true) :
    RedundantGuard.holds op (M.name s x) (M.value s bound) = true := by
  cases h with
  | first _ htest => exact (tests_true hparts hoperand htest).2
  | again _ _ _ _ htest => exact (tests_true hparts hoperand htest).2

/-- A harmless guard that does not leave keeps the operands. -/
theorem Harmless.keeps {c : Expr} {thn els : List Stmt} {s' : σ}
    (h : Harmless M x bound (.ite c thn els) s) (hrun : Runs M (.ite c thn els) s .normal s') :
    M.name s' x = M.name s x ∧ M.value s' bound = M.value s bound := by
  cases hrun with
  | @ite _ _ _ _ s₁ s₂ b _ htest hpart =>
    obtain ⟨hname, hvalue, hkeeps⟩ := h c thn els rfl b s₁ htest
    rcases hkeeps with hexit | hsame
    · exact absurd rfl (hpart.not_normal hexit)
    · obtain ⟨hname', hvalue'⟩ := hsame s₁ s₂ hpart
      exact ⟨hname'.trans hname, hvalue'.trans hvalue⟩
  | exit ho => cases ho
  | other hif => cases hif

/-- Up to the flagged guard the operands are those of the loop condition. -/
theorem Meets.operands (h : Meets M cond body i s) (hparts : cmpParts cond = some (x, op, bound))
    (hi : i < (body.takeWhile bodyExits).length) {j : Nat} (hj : j ≤ i) {s' : σ}
    (hrun : RunsAll M (body.take j) s .normal s') :
    M.name s' x = M.name s x ∧ M.value s' bound = M.value s bound := by
  induction j generalizing s' with
  | zero =>
    cases hrun
    exact ⟨rfl, rfl⟩
  | succ j ih =>
    have hlen : j < body.length :=
      Nat.lt_of_lt_of_le (Nat.lt_trans hj hi) (List.takeWhile_prefix _).length_le
    rw [List.take_succ_eq_append_getElem hlen, runsAll_append] at hrun
    rcases hrun with ⟨m, hbefore, hguard⟩ | ⟨ho, -⟩
    · have hexits : bodyExits body[j] = true := by
        have hlt : j < (body.takeWhile bodyExits).length := Nat.lt_trans hj hi
        have hget : (body.takeWhile bodyExits)[j] = body[j] := (List.takeWhile_prefix _).getElem hlt
        rw [← hget]
        exact List.mem_takeWhile_imp (List.getElem_mem hlt)
      have hat : body[j]? = some body[j] := List.getElem?_eq_getElem hlen
      have hharmless := h.earlier x op bound hparts j hj body[j] hat m hbefore
      obtain ⟨hname, hvalue⟩ := ih (Nat.le_of_succ_le hj) hbefore
      cases hguard with
      | next hst hdone =>
        cases hdone
        revert hst hharmless hexits
        cases body[j] with
        | ite c thn els =>
          intro _ hharmless hst
          obtain ⟨hname', hvalue'⟩ := hharmless.keeps hst
          exact ⟨hname'.trans hname, hvalue'.trans hvalue⟩
        | _ => intro hexits; cases hexits
      | leave _ ho => exact absurd rfl ho
    · exact absurd rfl ho

/-- The flagged guard does nothing. -/
theorem Meets.redundant (h : Meets M cond body i s) (hi : i ∈ lintLoopCondGuards cond body)
    (htop : ∀ x op bound, cmpParts cond = some (x, op, bound) → isOperand bound = true →
      holds op (M.name s x) (M.value s bound) = true) : Redundant M body i s := by
  obtain ⟨⟨x, op, bound⟩, hparts, hlead, st, hst, hretests⟩ := mem_lint_iff.mp hi
  obtain ⟨c, thn, els, op', bound', rfl, hguard, hop, hview⟩ := retests_spec hretests
  obtain ⟨hoperand, hsame⟩ := viewSame_operand hview
  have hbound : bound' = bound := by
    rcases hsame with heq | ⟨m, n, rfl, rfl⟩
    · exact heq.symm
    · rw [h.sameNumber x op m c thn els x op' n hparts hst hguard]
  subst hbound
  have hfalse : ∀ s', RunsAll M (body.take i) s .normal s' →
      ∀ b s'', Tests M c s' b s'' ↔ s'' = s' ∧ b = false := by
    intro s' hrun b s''
    obtain ⟨hname, hvalue⟩ := h.operands hparts hlead (Nat.le_refl i) hrun
    have hholds := holds_complement hop (htop x op bound' hparts hoperand)
    simp only [Tests, hguard, if_pos hoperand, hname, hvalue, hholds]
  refine ⟨fun c' thn' els' s' s'' hat hrun htest => ?_, fun o s' => ?_⟩
  · rw [hst] at hat
    cases hat
    exact absurd ((hfalse s' hrun true s'').mp htest).2 (by decide)
  · have hskip : ∀ m, RunsAll M (body.take i) s .normal m →
        ∀ o s', Runs M (.ite c thn els) m o s' ↔ o = .normal ∧ s' = m := by
      intro m hrun o s'
      constructor
      · intro hite
        cases hite with
        | @ite _ _ _ _ s₁ s₂ b _ htest hpart =>
          obtain ⟨rfl, rfl⟩ := (hfalse m hrun b s₁).mp htest
          obtain ⟨ho, rfl⟩ := (h.elsePart c thn els hst s₁ o s₂).mp hpart
          exact ⟨ho, M.scopeEnd_self s₂⟩
        | exit ho => cases ho
        | other hif => cases hif
      · rintro ⟨rfl, rfl⟩
        have hrun' : Runs M (.ite c thn els) s' .normal (M.scopeEnd s' s') :=
          .ite ((hfalse s' hrun false s').mpr ⟨rfl, rfl⟩)
            ((h.elsePart c thn els hst s' .normal s').mpr ⟨rfl, rfl⟩)
        rwa [M.scopeEnd_self] at hrun'
    obtain ⟨hlen, hget⟩ := List.getElem?_eq_some_iff.mp hst
    have hsplit : body = body.take i ++ .ite c thn els :: body.drop (i + 1) := by
      rw [← hget, ← List.drop_eq_getElem_cons hlen, List.take_append_drop]
    have hbody : RunsAll M body s o s' ↔
        RunsAll M (body.take i ++ .ite c thn els :: body.drop (i + 1)) s o s' := by rw [← hsplit]
    rw [List.eraseIdx_eq_take_drop_succ, hbody, runsAll_append, runsAll_append]
    constructor
    · rintro (⟨m, hbefore, hrest⟩ | hleft)
      · exact .inl ⟨m, hbefore, (runsAll_cons_skip (hskip m hbefore)).mpr hrest⟩
      · exact .inr hleft
    · rintro (⟨m, hbefore, hrest⟩ | hleft)
      · exact .inl ⟨m, hbefore, (runsAll_cons_skip (hskip m hbefore)).mp hrest⟩
      · exact .inr hleft

end Round

/-! ## The theorem -/

theorem flagged_redundant (M : Machine σ α) (init incr : List Stmt) (cond : Expr) (body : List Stmt)
    (i : Nat) (hi : i ∈ lintLoopCondGuards cond body) (s₀ : σ)
    (hmeets : ∀ s, Tops M init cond incr body s₀ s → Meets M cond body i s) :
    (∀ s, Tops M init cond incr body s₀ s → Redundant M body i s) ∧
      ∀ s, Tops M init cond incr (body.eraseIdx i) s₀ s ↔ Tops M init cond incr body s₀ s := by
  have hredundant : ∀ s, Tops M init cond incr body s₀ s → Redundant M body i s :=
    fun s htop => (hmeets s htop).redundant hi fun _ _ _ => htop.holds
  refine ⟨hredundant, fun s => ⟨fun h => ?_, fun h => ?_⟩⟩
  · induction h with
    | first hinit htest => exact .first hinit htest
    | again _ hbody ho hincr htest ih =>
      exact .again ih (((hredundant _ ih).deletable _ _).mp hbody) ho hincr htest
  · induction h with
    | first hinit htest => exact .first hinit htest
    | again htop hbody ho hincr htest ih =>
      exact .again ih (((hredundant _ htop).deletable _ _).mpr hbody) ho hincr htest

end Runs

/-- Integer variables and assignments of numbers. -/
def counters : Machine (String → Int) Int where
  name s x := some (s x)
  extent _ _ _ := none
  number n := some n
  condition _ s _ s' := s' = s
  statement st s o s' := o = .normal ∧
    s' = match st with
      | .assign (.name x) .set (.lit n) => fun y => if y = x then n else s y
      | _ => s
  scopeEnd _ s' := s'
  scopeEnd_self _ := rfl

/-- `i < 5`. -/
def below : Expr := .binary .lt (.name "i") (.lit 5) none

/-- `if (i >= 5) { return; }`. -/
def guard : Stmt := .ite (.binary .gte (.name "i") (.lit 5) none) [.ret []] []

theorem flagged_redundant_single : Redundant counters [guard] 0 fun _ => 0 := by
  refine (flagged_redundant counters [] [] below [guard] 0 (by decide) (fun _ => 0)
    fun s _ => ?_).1 _ (.first .done ⟨rfl, rfl⟩)
  refine ⟨fun _ _ _ _ j hj => absurd hj (Nat.not_lt_zero j), ?_, ?_⟩
  · intro x op m c thn els y op' n hcond hat hguard
    cases hat
    cases hcond
    cases hguard
    rfl
  · intro c thn els hat s' o s''
    cases hat
    constructor
    · intro h
      cases h
      exact ⟨rfl, rfl⟩
    · rintro ⟨rfl, rfl⟩
      exact .done

/-- `if (j > 0) { i = 9; } else { break; }`. -/
def jump : Stmt :=
  .ite (.binary .gt (.name "j") (.lit 0) none) [.assign (.name "i") .set (.lit 9)] [.brk]

theorem not_flagged_redundant :
    ¬ ∀ (init incr : List Stmt) (cond : Expr) (body : List Stmt) (i : Nat) (s₀ s : String → Int),
      i ∈ lintLoopCondGuards cond body → Tops counters init cond incr body s₀ s →
        Redundant counters body i s := by
  intro h
  -- `i` is 1 at the top, and 9 at the guard
  have htop : Tops counters [] below [] [jump, guard] (fun _ => 1) fun _ => 1 :=
    .first .done ⟨rfl, rfl⟩
  have hjump : RunsAll counters [jump] (fun _ => 1) .normal fun y => if y = "i" then 9 else 1 :=
    .next (.ite (b := true) ⟨rfl, rfl⟩ (.next (.other rfl rfl ⟨rfl, rfl⟩) .done)) .done
  exact (h [] [] below [jump, guard] 1 _ _ (by decide) htop).never _ _ _ _ _ rfl hjump ⟨rfl, rfl⟩

end Arche.Semantic.Bounds.RedundantGuard
