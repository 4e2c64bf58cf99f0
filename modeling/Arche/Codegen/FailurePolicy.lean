import Mathlib.Algebra.Order.Ring.Int
import Mathlib.Tactic.Common

/-!
# Failure policies as generated code

`emit_policy_inline` binds the `int` parameters of a policy to copies of the
operands of a fallible operation, emits the body of the policy, and reads the
parameters back. The bodies are those of core/core.arche. `emit_int_divmod`
puts a divide policy before a division and `emit_index_policy` a bounds policy
before an access.

A divide policy looks at a zero divisor only, and only a 32-bit division gets
one. `not_neverTraps` is a division on 64 bits that traps under `abort`;
`guarded_traps_iff` says when one that goes through `emit_int_divmod` does.
-/

namespace Arche.Codegen.FailurePolicy

/-- Why generated code does not go on: the program exits, or the instruction has no defined
behaviour. -/
inductive Stop
  | exited
  | undefined
deriving DecidableEq, Repr

/-- `trunc … to i32`. -/
def i32 (x : Int) : Int := (x + 2147483648) % 4294967296 - 2147483648

/-! ## Policy bodies -/

/-- The expressions of the policies in core. `param k` is the parameter at place `k`. -/
inductive PExpr
  | param (k : Nat)
  | lit (n : Int)
  | add (l r : PExpr)
  | sub (l r : PExpr)
  | mod (l r : PExpr)

inductive PCond
  | lt (l r : PExpr)
  | ge (l r : PExpr)
  | eq (l r : PExpr)
  | or (a b : PCond)

/-- `exit` is `_exit(134)` after its message. -/
inductive PStmt
  | set (k : Nat) (e : PExpr)
  | ite (c : PCond) (thn : List PStmt)
  | exit

section Run

-- what a `%` in the body does
variable (rem : Int → Int → Except Stop Int)

def PExpr.eval (ops : List Int) : PExpr → Except Stop Int
  | .param k => .ok (ops.getD k 0)
  | .lit n => .ok n
  | .add l r => do return i32 ((← l.eval ops) + (← r.eval ops))
  | .sub l r => do return i32 ((← l.eval ops) - (← r.eval ops))
  | .mod l r => do rem (← l.eval ops) (← r.eval ops)

def PCond.eval (ops : List Int) : PCond → Except Stop Bool
  | .lt l r => do return decide ((← l.eval rem ops) < (← r.eval rem ops))
  | .ge l r => do return decide ((← r.eval rem ops) ≤ (← l.eval rem ops))
  | .eq l r => do return decide ((← l.eval rem ops) = (← r.eval rem ops))
  | .or a b => do if ← a.eval ops then return true else b.eval ops

mutual

def PStmt.exec (ops : List Int) : PStmt → Except Stop (List Int)
  | .set k e => do return ops.set k (← e.eval rem ops)
  | .ite c thn => do if ← c.eval rem ops then execAll ops thn else return ops
  | .exit => .error .exited

def execAll (ops : List Int) : List PStmt → Except Stop (List Int)
  | [] => .ok ops
  | s :: ss => do execAll (← s.exec ops) ss

end

/-- `emit_policy_inline`: the operands after the body, cut to `i32` on the way in. -/
def emitPolicyInline (body : List PStmt) (ops : List Int) : Except Stop (List Int) :=
  execAll rem (ops.map i32) body

end Run

/-! ## The policies of core -/

inductive DividePolicy
  | zero
  | abort
  | undefined
deriving DecidableEq, Repr

/-- The bodies over `(a, b)`. -/
def DividePolicy.body : DividePolicy → List PStmt
  | .zero => [.ite (.eq (.param 1) (.lit 0)) [.set 0 (.lit 0), .set 1 (.lit 1)]]
  | .abort => [.ite (.eq (.param 1) (.lit 0)) [.exit]]
  | .undefined => []

inductive BoundsPolicy
  | abort
  | clamp
  | wrap
deriving DecidableEq, Repr

/-- The bodies over `(len, i)`. -/
def BoundsPolicy.body : BoundsPolicy → List PStmt
  | .abort => [.ite (.or (.lt (.param 1) (.lit 0)) (.ge (.param 1) (.param 0))) [.exit]]
  | .clamp =>
    [.ite (.lt (.param 1) (.lit 0)) [.set 1 (.lit 0)],
      .ite (.ge (.param 1) (.param 0)) [.set 1 (.sub (.param 0) (.lit 1))]]
  | .wrap => [.set 1 (.mod (.add (.mod (.param 1) (.param 0)) (.param 0)) (.param 0))]

/-- The pool policy `abort` over `(count, cap)`. -/
def poolAbortBody : List PStmt := [.ite (.ge (.param 0) (.param 1)) [.exit]]

/-! ## Divisions -/

inductive DivOp
  | sdiv
  | udiv
  | srem
  | urem
deriving DecidableEq, Repr

def DivOp.isSigned : DivOp → Bool
  | .sdiv | .srem => true
  | .udiv | .urem => false

/-- The instruction on `w`-bit operands, given by their signed values, has no defined result. -/
def DivOp.Traps (w : Nat) (op : DivOp) (a b : Int) : Prop :=
  b = 0 ∨ (op.isSigned = true ∧ a = -2 ^ (w - 1) ∧ b = -1)

instance (w : Nat) (op : DivOp) (a b : Int) : Decidable (op.Traps w a b) :=
  inferInstanceAs (Decidable (_ ∨ _))

/-- The operands the instruction gets from the divide policy `d`. -/
def divideOperands (d : DividePolicy) (a b : Int) : Except Stop (Int × Int) := do
  -- no divide policy divides
  let out ← emitPolicyInline (fun _ _ => .error .undefined) d.body [a, b]
  return (out.getD 0 0, out.getD 1 0)

/-- `emit_int_divmod`: only the type `i32` takes the policy. A vector type is not `i32`. -/
def emitIntDivmod (d : DividePolicy) (w : Nat) (vector : Bool) (a b : Int) :
    Except Stop (Int × Int) :=
  if w = 32 ∧ vector = false then divideOperands d a b else .ok (a, b)

/-- An integer division of the source: its width and signedness, and `%` or `/`. -/
structure Division where
  width : Nat
  isSigned : Bool
  isMod : Bool
deriving DecidableEq, Repr

/-- Where divisions are emitted: a binary expression (in a vectorised float sweep the integer
operands are lanes too), a lane of a tuple, `/=` and `%=` on a column in a sweep (fused or not), on
a column in the row loop of a system or fan, on a global, on a local, and on an element. -/
inductive DivSite
  | binary (vector : Bool)
  | tupleLane
  | column
  | row
  | global
  | «local»
  | element (vector : Bool)
deriving DecidableEq, Repr

def divOp (isSigned isMod : Bool) : DivOp :=
  if isMod then (if isSigned then .srem else .urem) else (if isSigned then .sdiv else .udiv)

/-- The instruction chosen. Rows, globals and elements are divided as signed whatever their type;
`%` on tuples does not exist. -/
def DivSite.op (q : Division) : DivSite → DivOp
  | .binary _ | .column | .local => divOp q.isSigned q.isMod
  | .tupleLane => .sdiv
  | .row | .global | .element _ => divOp true q.isMod

/-- What is executed at a site: the operands the instruction gets. -/
def DivSite.emit (d : DividePolicy) (q : Division) (a b : Int) : DivSite → Except Stop (Int × Int)
  | .binary true | .tupleLane | .row => .ok (a, b)
  | .binary false | .column | .global | .local => emitIntDivmod d q.width false a b
  | .element vector => emitIntDivmod d q.width vector a b

/-- A value of the type of a division, by its signed reading. -/
def Division.Value (q : Division) : Type := { x : Int // -2 ^ (q.width - 1) ≤ x ∧ x < 2 ^ (q.width - 1) }

/-- The division at the site is never executed without a result. -/
def NeverTraps (s : DivSite) (d : DividePolicy) (q : Division) : Prop :=
  ∀ (a b : q.Value) (a' b' : Int), s.emit d q a.1 b.1 = .ok (a', b') →
    ¬ (s.op q).Traps q.width a' b'

/-- The sites whose division goes through `emit_int_divmod` with a scalar type. -/
def DivSite.guarded : DivSite → Bool
  | .binary vector | .element vector => !vector
  | .column | .global | .local => true
  | .tupleLane | .row => false

theorem i32_of_mem {x : Int} (h₁ : -2147483648 ≤ x) (h₂ : x < 2147483648) : i32 x = x := by
  unfold i32
  omega

theorem i32_mem (x : Int) : -2147483648 ≤ i32 x ∧ i32 x < 2147483648 := by
  unfold i32
  omega

theorem divideOperands_abort (a b : Int) :
    divideOperands .abort a b = if i32 b = 0 then .error .exited else .ok (i32 a, i32 b) := by
  by_cases h : i32 b = 0 <;>
    simp [divideOperands, emitPolicyInline, DividePolicy.body, execAll, PStmt.exec, PCond.eval,
      PExpr.eval, h, bind, Except.bind, pure, Except.pure]

theorem divideOperands_zero (a b : Int) :
    divideOperands .zero a b = .ok (if i32 b = 0 then (0, 1) else (i32 a, i32 b)) := by
  by_cases h : i32 b = 0 <;>
    simp [divideOperands, emitPolicyInline, DividePolicy.body, execAll, PStmt.exec, PCond.eval,
      PExpr.eval, h, bind, Except.bind, pure, Except.pure]

theorem divideOperands_undefined (a b : Int) :
    divideOperands .undefined a b = .ok (i32 a, i32 b) := rfl

/-- What reaches the instruction under `abort` or `zero`: the operands themselves, or `0 / 1` in
place of a zero divisor. -/
theorem divideOperands_ok {d : DividePolicy} {a b a' b' : Int} (hd : d ≠ .undefined)
    (h : divideOperands d a b = .ok (a', b')) :
    (a' = i32 a ∧ b' = i32 b ∧ i32 b ≠ 0) ∨ (a' = 0 ∧ b' = 1 ∧ i32 b = 0) := by
  cases d with
  | undefined => exact absurd rfl hd
  | abort =>
    rw [divideOperands_abort] at h
    split at h
    · cases h
    · next hb =>
      cases h
      exact .inl ⟨rfl, rfl, hb⟩
  | zero =>
    rw [divideOperands_zero] at h
    split at h
    · next hb =>
      cases h
      exact .inr ⟨rfl, rfl, hb⟩
    · next hb =>
      cases h
      exact .inl ⟨rfl, rfl, hb⟩

theorem emit_of_guarded {s : DivSite} (d : DividePolicy) (q : Division) (a b : Int)
    (hs : s.guarded = true) : s.emit d q a b = emitIntDivmod d q.width false a b := by
  cases s with
  | binary vector =>
    cases vector with
    | false => rfl
    | true => cases hs
  | element vector =>
    cases vector with
    | false => rfl
    | true => cases hs
  | tupleLane => cases hs
  | row => cases hs
  | column => rfl
  | global => rfl
  | «local» => rfl

theorem i32_value {q : Division} (hw : q.width = 32) (a : q.Value) : i32 a.1 = a.1 := by
  obtain ⟨x, hlo, hhi⟩ := a
  simp only [hw] at hlo hhi
  exact i32_of_mem hlo hhi

/-- A division that is emitted through `emit_int_divmod` on scalars, under `abort` or `zero`: on 32
bits it is never executed with a zero divisor, and on any other width nothing is looked at. No
divide policy looks at the dividend, so the least value over `-1` is left to a signed instruction on
every width. -/
theorem guarded_traps_iff {s : DivSite} {d : DividePolicy} {q : Division} (hs : s.guarded = true)
    (hd : d ≠ .undefined) (a b : q.Value) {a' b' : Int} (h : s.emit d q a.1 b.1 = .ok (a', b')) :
    (q.width = 32 → b' ≠ 0) ∧
    ((s.op q).Traps q.width a' b' ↔
      (q.width ≠ 32 ∧ b.1 = 0) ∨
      ((s.op q).isSigned = true ∧ a.1 = -2 ^ (q.width - 1) ∧ b.1 = -1)) := by
  rw [emit_of_guarded d q _ _ hs, emitIntDivmod] at h
  by_cases hw : q.width = 32
  · rw [if_pos ⟨hw, rfl⟩] at h
    rcases divideOperands_ok hd h with ⟨rfl, rfl, hb⟩ | ⟨rfl, rfl, hb⟩
    · refine ⟨fun _ => hb, ?_⟩
      rw [DivOp.Traps, or_iff_right hb, i32_value hw a, i32_value hw b]
      exact (or_iff_right fun hn => hn.1 hw).symm
    · refine ⟨fun _ => by decide, ?_⟩
      -- `0 / 1` stands where the divisor was zero, and neither pair overflows
      rw [i32_value hw b] at hb
      constructor
      · rintro (h | ⟨-, -, h⟩)
        · cases h
        · cases h
      · rintro (⟨hn, -⟩ | ⟨-, -, hb'⟩)
        · exact absurd hw hn
        · rw [hb] at hb'
          cases hb'
  · rw [if_neg fun hc => hw hc.1] at h
    cases h
    refine ⟨fun h32 => absurd h32 hw, ?_⟩
    rw [DivOp.Traps, and_iff_right hw]

/-- `7 / 0` on an `int` local under `zero` divides `0` by `1`. -/
theorem int_zero_seven :
    (1 : Int) ≠ 0 ∧ ¬ (DivSite.op ⟨32, true, false⟩ .local).Traps 32 0 1 := by
  have hop : DivSite.local.emit .zero ⟨32, true, false⟩ 7 0 = .ok (0, 1) := rfl
  have h := guarded_traps_iff (q := ⟨32, true, false⟩) rfl (by decide)
    ⟨7, by decide, by decide⟩ ⟨0, by decide, by decide⟩ hop
  exact ⟨h.1 rfl, fun ht => absurd (h.2.mp ht) (by decide)⟩

/-- A 64-bit division by zero is executed under `abort`. -/
theorem not_neverTraps : ¬ ∀ (s : DivSite) (d : DividePolicy) (q : Division),
    d ≠ .undefined → NeverTraps s d q := by
  intro h
  refine h (.binary false) .abort ⟨64, true, false⟩ (by decide) ⟨1, by decide, by decide⟩
    ⟨0, by decide, by decide⟩ 1 0 rfl ?_
  exact .inl rfl

end Arche.Codegen.FailurePolicy
