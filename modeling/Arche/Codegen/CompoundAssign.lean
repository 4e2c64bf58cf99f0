import Arche.Codegen.FailurePolicy
import Arche.Codegen.IntExpr

/-!
# Compound assignment

`p op= e` loads the place, computes and stores; `p = p op e` goes through the binary
expression. Every kind of place has a branch of its own that chooses the instruction, converts
the right side and runs the divide policy, or leaves one of these out.

Both forms are given the content of the place, its address computed once, and the operand the
right side came to. `Place.compound` is what the one leaves, `Place.plain` what the other.

1. `arith_of_ring`, `arith_of_division`: what is computed, from the values of the operands alone.
2. `Place.compound_eq`, `Place.plain_eq`: what both forms leave where they are accepted.
3. `compound_same_iff`: where they leave the same.
4. `not_same`: `a[i] += e` stores `e`.
-/

namespace Arche.Codegen.CompoundAssign

open Arche.Lib FailurePolicy IntExpr

/-! ## Places -/

/-- The branches of an assignment. A scalar local or out-parameter has the type its slot was
recorded with, which need not be the type it was declared with. -/
inductive Site
  | scalar (slot : IntTy)
  | global
  /-- A column in the row loop of a system or fan. -/
  | rowColumn
  /-- A whole column in a map. -/
  | sweepColumn
  /-- `Pool.col[i]`. -/
  | poolElement
  /-- An element of a local array or a slice. -/
  | arrayElement
  /-- `f[i]` for the binding of an `each_field`. -/
  | eachField
deriving DecidableEq, Repr

structure Place where
  site : Site
  ty : IntTy
deriving DecidableEq, Repr

/-- The type of the cell. -/
def Place.cell (p : Place) : IntTy :=
  match p.site with
  | .scalar slot => slot
  | _ => p.ty

/-- The right side: what it came to, and its `resolved` type. -/
structure Rhs where
  operand : Operand
  ty : IntTy
deriving DecidableEq, Repr

/-- What a statement leaves in the place, up to the width of the place. A register of a wrong
width makes the module one that is refused. -/
inductive Outcome
  | refused
  | stopped (why : Stop)
  | left (content : Int)
deriving DecidableEq, Repr

def Outcome.ofResult (width : Nat) : Except Stop Int → Outcome
  | .ok r => .left (r % (2 ^ width : Nat))
  | .error why => .stopped why

/-! ## The emitted code -/

/-- The operands of a division, behind the divide policy `guard` if there is one. -/
def guarded (guard : Option DividePolicy) (width : Nat) (x y : Int) : Except Stop (Int × Int) :=
  match guard with
  | some d => emitIntDivmod d width false x y
  | none => .ok (x, y)

/-- The instruction of format `t`. -/
def emitArith (t : Word) (op : ArithOp) (x y : Int) : Except Stop Int :=
  (op.emit t (t.wrap x) (t.wrap y)).elim (.error .undefined) .ok

def arith (t : Word) (guard : Option DividePolicy) (op : ArithOp) (x y : Int) : Except Stop Int :=
  match op with
  | .add | .sub | .mul => emitArith t op x y
  | .div | .mod => (guarded guard t.width x y).bind fun (a, b) => emitArith t op a b

/-- Load, compute, store. -/
def loadOpStore (t : Word) (guard : Option DividePolicy) (op : ArithOp) (c : Int) :
    Option Int → Outcome
  | some y => .ofResult t.width (arith t guard op c y)
  | none => .refused

/-- A store of the right side. -/
def storeOnly (width : Nat) : Option Int → Outcome
  | some y => .left (y % (2 ^ width : Nat))
  | none => .refused

/-- The right side as an operand of the given width, converted. -/
def Rhs.at (e : Rhs) (width : Nat) : Option Int := IntExpr.operand e.operand e.ty.toWord width

/-- The elements whose stores convert the right side. -/
def Place.narrow (p : Place) : Bool :=
  match p.site with
  | .poolElement => p.ty.width = 8 ∨ p.ty.width = 16
  | .arrayElement => p.ty.width = 8
  | _ => false

/-- The right side of `p op= e`, as an operand of the width of the place. -/
def Place.compoundOperand (p : Place) (e : Rhs) : Option Int :=
  if p.narrow then e.at p.cell.width else e.operand.at p.cell.width

/-- `p op= e`. -/
def Place.compound (p : Place) (d : DividePolicy) (op : ArithOp) (e : Rhs) (c : Int) : Outcome :=
  let y := p.compoundOperand e
  match p.site with
  | .scalar slot => loadOpStore slot.toWord (some d) op c y
  | .global => loadOpStore ⟨p.ty.width, true⟩ (some d) op c y
  | .rowColumn => loadOpStore ⟨p.ty.width, true⟩ none op c y
  | .sweepColumn => loadOpStore p.ty.toWord (some d) op c y
  | .poolElement => loadOpStore ⟨p.ty.width, true⟩ (some d) op c y
  -- the operator is not looked at
  | .arrayElement | .eachField => storeOnly p.ty.width y

/-- The type a place is read with: elements below `int` are extended to it. -/
def Place.readTy (p : Place) : IntTy :=
  match p.site with
  | .poolElement | .arrayElement =>
    if p.ty.width < 32 then ⟨⟨32, p.ty.signed⟩, by simp⟩ else p.ty
  | _ => p.ty

/-- The place as an expression. -/
def Place.read (p : Place) (c : Int) : Rhs where
  ty := p.readTy
  operand :=
    match p.site with
    | .poolElement | .arrayElement =>
      if p.ty.width < 32 then .reg 32 (p.ty.wrap c) else .reg p.ty.width c
    | _ => .reg p.cell.width c

/-- A plain store converts to the width of the cell. -/
def Place.converts (p : Place) : Bool :=
  match p.site with
  | .scalar _ | .sweepColumn => true
  | _ => p.narrow

/-- A store of a result of type `t`. -/
def Place.store (p : Place) (t : IntTy) (res : Except Stop Int) : Outcome :=
  if p.converts ∨ t.width = p.cell.width then
    .ofResult p.cell.width (res.map fun r => if t.width < p.cell.width then t.wrap r else r)
  else .refused

/-- `p = p op e`. -/
def Place.plain (p : Place) (d : DividePolicy) (op : ArithOp) (e : Rhs) (c : Int) : Outcome :=
  let t := pick p.readTy e.ty
  match (p.read c).at t.width, e.at t.width with
  | some x, some y => p.store t (arith t.toWord (some d) op x y)
  | _, _ => .refused

/-! ## The condition -/

/-- The operand can stand in an instruction of the given width. -/
def Fits : Operand → Nat → Prop
  | .text _, _ => True
  | .reg r _, width => r = width

/-- What the right side is worth. -/
def Rhs.value (e : Rhs) : Int :=
  match e.operand with
  | .text n => n
  | .reg _ x => e.ty.wrap x

/-- The right side is an operand of `p op= e`. -/
def Place.CompoundFits (p : Place) (e : Rhs) : Prop :=
  Fits e.operand (if p.narrow then e.ty.width else p.cell.width)

/-- `p = p op e` reads its operands at their widths, and its result is converted or fits. -/
def Place.PlainFits (p : Place) (e : Rhs) : Prop :=
  p.cell.width = p.ty.width ∧ Fits e.operand e.ty.width ∧
    (p.converts ∨ max p.readTy.width e.ty.width = p.ty.width)

/-- The value of an operation on integers. -/
def value : ArithOp → Int → Int → Int
  | .add, a, b => a + b
  | .sub, a, b => a - b
  | .mul, a, b => a * b
  | .div, a, b => a.tdiv b
  | .mod, a, b => a.tmod b

/-- What is done about a divisor of zero before the division. -/
inductive Guard
  | nothing
  | zero
  | abort
deriving DecidableEq, Repr

/-- A policy acts on 32 bits, and `undefined` does nothing. -/
def acting (width : Nat) (guard : Option DividePolicy) : Guard :=
  if width = 32 then
    match guard with
    | some .zero => .zero
    | some .abort => .abort
    | some .undefined | none => .nothing
  else .nothing

/-- A division: its format, its guard and its operands. -/
structure Division where
  word : Word
  guard : Guard
  a : Int
  b : Int

namespace Division

def Exits (q : Division) : Prop := q.b = 0 ∧ q.guard = .abort

/-- A divisor of zero without a guard, or a quotient that is out of range. -/
def Undefined (q : Division) : Prop :=
  if q.b = 0 then q.guard = .nothing else ¬q.word.Holds (q.a.tdiv q.b)

def result (q : Division) (op : ArithOp) : Int := if q.b = 0 then 0 else value op q.a q.b

/-- The division comes to `v`, up to the width of the place. -/
def Gives (q : Division) (op : ArithOp) (width : Nat) (v : Int) : Prop :=
  ¬q.Exits ∧ ¬q.Undefined ∧ q.result op ≡ v [ZMOD (2 ^ width : Nat)]

/-- Two divisions stop alike or come to the same, up to the width of the place. -/
def Alike (q r : Division) (op : ArithOp) (width : Nat) : Prop :=
  (q.Exits ↔ r.Exits) ∧ (q.Undefined ↔ r.Undefined) ∧
    (¬q.Exits → ¬q.Undefined → q.result op ≡ r.result op [ZMOD (2 ^ width : Nat)])

instance (q : Division) : Decidable q.Exits := inferInstanceAs (Decidable (_ ∧ _))

instance (q : Division) : Decidable q.Undefined :=
  inferInstanceAs (Decidable (if q.b = 0 then _ else _))

def run (q : Division) (op : ArithOp) : Except Stop Int :=
  if q.Exits then .error .exited
  else if q.Undefined then .error .undefined
  else .ok (q.result op)

end Division

/-- The division of `p = p op e`. -/
def Place.plainDivision (p : Place) (d : DividePolicy) (e : Rhs) (c : Int) : Division :=
  let t := pick p.readTy e.ty
  ⟨t.toWord, acting t.width (some d), p.ty.wrap c, t.wrap e.value⟩

/-- The format of `p op= e`. -/
def Place.word (p : Place) : Word :=
  match p.site with
  | .scalar slot => slot.toWord
  | .sweepColumn => p.ty.toWord
  | _ => ⟨p.ty.width, true⟩

/-- The divide policy of `p op= e`. -/
def Place.policy (p : Place) (d : DividePolicy) : Option DividePolicy :=
  if p.site = .rowColumn then none else some d

/-- The division of `p op= e`. -/
def Place.compoundDivision (p : Place) (d : DividePolicy) (e : Rhs) (c : Int) : Division :=
  ⟨p.word, acting p.word.width (p.policy d), p.word.wrap c, p.word.wrap e.value⟩

/-- The place ignores the operator. -/
def Place.ignoresOp (p : Place) : Bool := p.site = .arrayElement ∨ p.site = .eachField

/-- Both forms come to the same. -/
def Place.Agrees (p : Place) (d : DividePolicy) (op : ArithOp) (e : Rhs) (c : Int) : Prop :=
  match op with
  | .add | .sub | .mul =>
    p.ignoresOp → value op c e.value ≡ e.value [ZMOD (2 ^ p.ty.width : Nat)]
  | .div | .mod =>
    if p.ignoresOp then (p.plainDivision d e c).Gives op p.ty.width e.value
    else (p.plainDivision d e c).Alike (p.compoundDivision d e c) op p.ty.width

/-- The condition: the module is accepted with both forms or with none, and if it is accepted they
come to the same. -/
def Place.Same (p : Place) (d : DividePolicy) (op : ArithOp) (e : Rhs) (c : Int) : Prop :=
  (p.CompoundFits e ↔ p.PlainFits e) ∧ (p.PlainFits e → p.Agrees d op e c)

/-! ## Operations -/

section

variable {t : Word} {op : ArithOp} {guard : Option DividePolicy} {width : Nat} {x y x' y' : Int}

theorem wrap_modEq_of_le (h : width ≤ t.width) (x : Int) :
    t.wrap x ≡ x [ZMOD (2 ^ width : Nat)] :=
  (t.wrap_modEq x).of_dvd (Int.natCast_dvd_natCast.mpr (Nat.pow_dvd_pow 2 h))

theorem emit_of_ring (hdiv : op ≠ .div) (hmod : op ≠ .mod) (a b : Int) :
    op.emit t a b = some (value op a b) := by
  have hdef : ¬op.Undefined t a b := by simp [ArithOp.Undefined, hdiv, hmod]
  rw [ArithOp.emit, if_neg hdef]
  cases op with
  | add | sub | mul => rfl
  | div => exact absurd rfl hdiv
  | mod => exact absurd rfl hmod

/-- Sums, differences and products: any format that is wide enough will do. -/
theorem arith_of_ring (hdiv : op ≠ .div) (hmod : op ≠ .mod) (hle : width ≤ t.width)
    (hx : x ≡ x' [ZMOD (2 ^ width : Nat)]) (hy : y ≡ y' [ZMOD (2 ^ width : Nat)]) :
    Outcome.ofResult width (arith t guard op x y) =
      .left (value op x' y' % (2 ^ width : Nat)) := by
  have ha := (wrap_modEq_of_le hle x).trans hx
  have hb := (wrap_modEq_of_le hle y).trans hy
  have harith : arith t guard op x y = .ok (value op (t.wrap x) (t.wrap y)) := by
    cases op with
    | add | sub | mul => simp only [arith, emitArith, emit_of_ring hdiv hmod, Option.elim_some]
    | div => exact absurd rfl hdiv
    | mod => exact absurd rfl hmod
  rw [harith]
  refine congrArg Outcome.left ?_
  cases op with
  | add => exact ha.add hb
  | sub => exact ha.sub hb
  | mul => exact ha.mul hb
  | div => exact absurd rfl hdiv
  | mod => exact absurd rfl hmod

/-- The guard looks at a divisor of zero only. -/
theorem Division.run_guard {g : Guard} {a b : Int} (hb : b ≠ 0) :
    (Division.mk t .nothing a b).run op = (Division.mk t g a b).run op := by
  simp [Division.run, Division.Exits, Division.Undefined, Division.result, hb]

theorem emit_of_division (hop : op = .div ∨ op = .mod) (x y : Int) :
    emitArith t op x y = (Division.mk t .nothing (t.wrap x) (t.wrap y)).run op := by
  unfold emitArith
  generalize t.wrap x = a
  generalize t.wrap y = b
  have hrun : op.run a b = if b = 0 then none else some (value op a b) := by
    obtain rfl | rfl := hop <;> rfl
  by_cases hb : b = 0
  · have hundef : (Division.mk t .nothing a b).Undefined := (if_pos hb).mpr rfl
    have hexits : ¬(Division.mk t .nothing a b).Exits := fun h => nomatch h.2
    rw [Division.run, if_neg hexits, if_pos hundef, ArithOp.emit, hrun, if_pos hb, ite_self]
    rfl
  · have hexits : ¬(Division.mk t .nothing a b).Exits := fun h => hb h.1
    have hundef : (Division.mk t .nothing a b).Undefined ↔ op.Undefined t a b := by
      simp [Division.Undefined, ArithOp.Undefined, hb, hop]
    rw [Division.run, if_neg hexits, ArithOp.emit, hrun, if_neg hb]
    by_cases h : op.Undefined t a b
    · rw [if_pos h, if_pos (hundef.mpr h)]
      rfl
    · rw [if_neg h, if_neg (mt hundef.mp h)]
      simp [Division.result, hb]

theorem wrap_i32 (hw : t.width = 32) (x : Int) : t.wrap (i32 x) = t.wrap x := by
  refine Word.wrap_eq_iff.mpr ?_
  rw [hw]
  unfold i32 Int.ModEq
  omega

theorem i32_eq_zero_iff (hw : t.width = 32) : i32 y = 0 ↔ t.wrap y = 0 := by
  have hzero : t.wrap y = 0 ↔ t.wrap y = t.wrap 0 := by rw [wrap_zero]
  rw [hzero, Word.wrap_eq_iff, hw]
  unfold i32 Int.ModEq
  omega

/-- Behind a policy that acts, the operands themselves if there is something to divide by. -/
theorem emit_behind {g : Guard} (hop : op = .div ∨ op = .mod) (hw : t.width = 32)
    (hy : i32 y ≠ 0) :
    emitArith t op (i32 x) (i32 y) = (Division.mk t g (t.wrap x) (t.wrap y)).run op := by
  have hb : t.wrap y ≠ 0 := mt (i32_eq_zero_iff hw).mpr hy
  rw [emit_of_division hop, wrap_i32 hw, wrap_i32 hw, Division.run_guard hb]

/-- A division by the residues of its operands. -/
theorem arith_of_division (hop : op = .div ∨ op = .mod) (x y : Int) :
    arith t guard op x y =
      (Division.mk t (acting t.width guard) (t.wrap x) (t.wrap y)).run op := by
  have harith : arith t guard op x y =
      (guarded guard t.width x y).bind fun p => emitArith t op p.1 p.2 := by
    obtain rfl | rfl := hop <;> rfl
  rw [harith]
  cases guard with
  | none =>
    have hnothing : acting t.width none = .nothing := by simp [acting]
    rw [hnothing]
    exact emit_of_division hop x y
  | some d =>
    by_cases hw : t.width = 32
    · simp only [guarded, emitIntDivmod, hw, and_self, if_true, acting]
      cases d with
      | undefined =>
        rw [divideOperands_undefined, ← wrap_i32 hw x, ← wrap_i32 hw y]
        exact emit_of_division hop (i32 x) (i32 y)
      | abort =>
        rw [divideOperands_abort]
        by_cases hy : i32 y = 0
        · have hb := (i32_eq_zero_iff hw).mp hy
          have hexits : (Division.mk t .abort (t.wrap x) (t.wrap y)).Exits := ⟨hb, rfl⟩
          rw [if_pos hy, Division.run, if_pos hexits]
          rfl
        · rw [if_neg hy]
          exact emit_behind hop hw hy
      | zero =>
        rw [divideOperands_zero]
        by_cases hy : i32 y = 0
        · have hb := (i32_eq_zero_iff hw).mp hy
          have hone : t.wrap 1 ≠ 0 := mt (i32_eq_zero_iff hw).mpr (by decide)
          rw [if_pos hy, hb]
          -- `0 / 1`
          refine (emit_of_division hop 0 1).trans ?_
          rw [wrap_zero]
          obtain rfl | rfl := hop <;>
            simp [Division.run, Division.Exits, Division.Undefined, Division.result, hone, value,
              Word.Holds, wrap_zero]
        · rw [if_neg hy]
          exact emit_behind hop hw hy
    · have hnothing : acting t.width (some d) = .nothing := if_neg hw
      simp only [guarded, emitIntDivmod, hw, false_and, if_false, hnothing]
      exact emit_of_division hop x y

/-! ## Outcomes -/

theorem left_eq_iff :
    Outcome.left (x % (2 ^ width : Nat)) = .left (y % (2 ^ width : Nat)) ↔
      x ≡ y [ZMOD (2 ^ width : Nat)] := by
  rw [Outcome.left.injEq]
  rfl

variable {q r : Division} {v : Int}

theorem Division.Exits.not_undefined (h : q.Exits) : ¬q.Undefined := by
  rw [Division.Undefined, if_pos h.1, h.2]
  exact nofun

theorem ofResult_run_iff :
    Outcome.ofResult width (q.run op) = .ofResult width (r.run op) ↔ q.Alike r op width := by
  unfold Division.run Division.Alike
  by_cases hq : q.Exits
  · by_cases hr : r.Exits
    · simp [hq, hr, hq.not_undefined, hr.not_undefined]
    · by_cases hr' : r.Undefined <;> simp [hq, hr, hr', Outcome.ofResult]
  · by_cases hr : r.Exits
    · by_cases hq' : q.Undefined <;> simp [hq, hr, hq', Outcome.ofResult]
    · by_cases hq' : q.Undefined
      · by_cases hr' : r.Undefined <;> simp [hq, hr, hq', hr', Outcome.ofResult]
      · by_cases hr' : r.Undefined
        · simp [hq, hr, hq', hr', Outcome.ofResult]
        · simp only [hq, hr, hq', hr', if_false, true_and, not_false_eq_true, forall_const]
          exact left_eq_iff

theorem ofResult_run_eq_left_iff :
    Outcome.ofResult width (q.run op) = .left (v % (2 ^ width : Nat)) ↔ q.Gives op width v := by
  unfold Division.run Division.Gives
  by_cases hq : q.Exits
  · simp [hq, Outcome.ofResult]
  · by_cases hq' : q.Undefined
    · simp [hq, hq', Outcome.ofResult]
    · simp only [hq, hq', if_false, true_and, not_false_eq_true]
      exact left_eq_iff

/-! ## Operands -/

variable {o : Operand} {e : Rhs}

theorem at_of_not_fits (h : ¬Fits o width) : o.at width = none := by
  cases o with
  | text n => exact absurd trivial h
  | reg r x => exact if_neg h

/-- A register of the width of its type holds its value. -/
theorem Rhs.operand_at (hw : Fits e.operand width) :
    ∃ y, e.operand.at width = some y ∧
      (Fits e.operand e.ty.width → y ≡ e.value [ZMOD (2 ^ width : Nat)]) := by
  obtain ⟨o, ty⟩ := e
  cases o with
  | text n => exact ⟨n, rfl, fun _ => rfl⟩
  | reg r x =>
    obtain rfl : r = width := hw
    refine ⟨x, if_pos rfl, fun hown => ?_⟩
    rw [show r = ty.width from hown]
    exact (ty.wrap_modEq x).symm

theorem Rhs.at_of_fits (h : Fits e.operand e.ty.width) (width : Nat) :
    ∃ y, e.at width = some y ∧ y ≡ e.value [ZMOD (2 ^ width : Nat)] := by
  obtain ⟨o, ty⟩ := e
  cases o with
  | text n =>
    refine ⟨n, ?_, rfl⟩
    simp [Rhs.at, IntExpr.operand, emitIntConvert, Operand.at]
  | reg r x =>
    obtain rfl : r = ty.width := h
    by_cases hw : ty.width = width
    · obtain ⟨y, hy, hmod⟩ := Rhs.operand_at (e := ⟨.reg ty.width x, ty⟩) hw
      exact ⟨y, by rw [Rhs.at, IntExpr.operand, emitIntConvert, if_pos hw]; exact hy, hmod rfl⟩
    · refine ⟨if ty.width < width then ty.wrap x else x, ?_, ?_⟩
      · simp [Rhs.at, IntExpr.operand, emitIntConvert, Operand.at, hw]
      · split
        · rfl
        · next hlt => exact (wrap_modEq_of_le (Nat.not_lt.mp hlt) x).symm

theorem Rhs.at_of_not_fits (h : ¬Fits e.operand e.ty.width) (width : Nat) :
    e.at width = none := by
  obtain ⟨o, ty⟩ := e
  cases o with
  | text n => exact absurd trivial h
  | reg r x =>
    have hr : r ≠ ty.width := h
    by_cases hw : ty.width = width
    · subst hw
      simp [Rhs.at, IntExpr.operand, emitIntConvert, Operand.at, hr]
    · simp [Rhs.at, IntExpr.operand, emitIntConvert, hw, hr]

/-! ## Both forms -/

variable {p : Place} {d : DividePolicy} {c : Int}

theorem Place.compoundOperand_of_fits (h : p.CompoundFits e) :
    ∃ y, p.compoundOperand e = some y ∧
      (Fits e.operand e.ty.width → y ≡ e.value [ZMOD (2 ^ p.cell.width : Nat)]) := by
  unfold Place.CompoundFits at h
  unfold Place.compoundOperand
  split
  · next hnarrow =>
    rw [if_pos hnarrow] at h
    obtain ⟨y, hy, hmod⟩ := Rhs.at_of_fits h p.cell.width
    exact ⟨y, hy, fun _ => hmod⟩
  · next hnarrow =>
    rw [if_neg hnarrow] at h
    exact Rhs.operand_at h

theorem Place.compoundOperand_of_not_fits (h : ¬p.CompoundFits e) :
    p.compoundOperand e = none := by
  unfold Place.CompoundFits at h
  unfold Place.compoundOperand
  split
  · next hnarrow =>
    rw [if_pos hnarrow] at h
    exact Rhs.at_of_not_fits h p.cell.width
  · next hnarrow =>
    rw [if_neg hnarrow] at h
    exact CompoundAssign.at_of_not_fits h

theorem Place.word_width (p : Place) : p.word.width = p.cell.width := by
  obtain ⟨site, ty⟩ := p
  cases site <;> rfl

theorem Place.compound_of_not_fits (h : ¬p.CompoundFits e) : p.compound d op e c = .refused := by
  have hnone := Place.compoundOperand_of_not_fits h
  unfold Place.compound
  rw [hnone]
  obtain ⟨site, ty⟩ := p
  cases site <;> rfl

theorem Place.compound_eq {y : Int} (h : p.compoundOperand e = some y) :
    p.compound d op e c =
      if p.ignoresOp then .left (y % (2 ^ p.ty.width : Nat))
      else .ofResult p.cell.width (arith p.word (p.policy d) op c y) := by
  unfold Place.compound
  rw [h]
  obtain ⟨site, ty⟩ := p
  cases site <;> rfl

theorem Place.le_readTy (p : Place) : p.ty.width ≤ p.readTy.width := by
  obtain ⟨site, ty⟩ := p
  cases site with
  | poolElement | arrayElement =>
    unfold Place.readTy
    dsimp only
    split
    · exact Nat.le_of_lt ‹_›
    · exact Nat.le_refl _
  | _ => exact Nat.le_refl _

theorem Place.readTy_signed (p : Place) : p.readTy.signed = p.ty.signed := by
  obtain ⟨site, ty⟩ := p
  cases site with
  | poolElement | arrayElement =>
    unfold Place.readTy
    dsimp only
    split <;> rfl
  | _ => rfl

theorem Place.read_fits_iff :
    Fits (p.read c).operand (p.read c).ty.width ↔ p.cell.width = p.ty.width := by
  obtain ⟨site, ty⟩ := p
  cases site with
  | poolElement | arrayElement =>
    by_cases hsmall : ty.width < 32 <;>
      simp [Place.read, Place.readTy, Place.cell, Fits, hsmall]
  | _ => exact Iff.rfl

/-- Reading a place gives the value of its type. -/
theorem Place.read_value : (p.read c).value = p.ty.wrap c := by
  obtain ⟨site, ty⟩ := p
  cases site with
  | poolElement | arrayElement =>
    by_cases hsmall : ty.width < 32
    · have hholds : (Word.mk 32 ty.signed).wrap (ty.wrap c) = ty.wrap c :=
        (ty.holds_wrap c).of_le (Nat.le_of_lt hsmall) rfl
      simpa [Place.read, Place.readTy, Rhs.value, hsmall] using hholds
    · simp [Place.read, Place.readTy, Rhs.value, hsmall]
  | _ => rfl

theorem Place.plain_of_not_fits (h : ¬p.PlainFits e) : p.plain d op e c = .refused := by
  unfold Place.plain
  dsimp only
  by_cases hcell : p.cell.width = p.ty.width
  · by_cases hown : Fits e.operand e.ty.width
    · have hstore : ¬(p.converts ∨ max p.readTy.width e.ty.width = p.cell.width) := by
        rw [hcell]
        exact fun hstore => h ⟨hcell, hown, hstore⟩
      split
      · exact if_neg hstore
      · rfl
    · rw [Rhs.at_of_not_fits hown]
      split
      · next hnone => exact nomatch hnone
      · rfl
  · rw [Rhs.at_of_not_fits (mt Place.read_fits_iff.mp hcell)]

theorem Place.plain_eq (d : DividePolicy) (op : ArithOp) (c : Int) (h : p.PlainFits e) :
    ∃ x y : Int,
      x ≡ p.ty.wrap c [ZMOD (2 ^ (pick p.readTy e.ty).width : Nat)] ∧
      y ≡ e.value [ZMOD (2 ^ (pick p.readTy e.ty).width : Nat)] ∧
      p.plain d op e c =
        .ofResult p.ty.width (arith (pick p.readTy e.ty).toWord (some d) op x y) := by
  obtain ⟨hcell, hown, hstore⟩ := h
  generalize ht : pick p.readTy e.ty = t
  obtain ⟨x, hx, hxmod⟩ := Rhs.at_of_fits (Place.read_fits_iff (c := c).mpr hcell) t.width
  obtain ⟨y, hy, hymod⟩ := Rhs.at_of_fits hown t.width
  rw [Place.read_value] at hxmod
  refine ⟨x, y, hxmod, hymod, ?_⟩
  have hwide : ¬t.width < p.cell.width := by
    rw [hcell, ← ht]
    exact Nat.not_lt.mpr (p.le_readTy.trans (Nat.le_max_left _ _))
  have hconverts : p.converts ∨ t.width = p.cell.width := by
    rw [hcell, ← ht]
    exact hstore
  have hplain : p.plain d op e c = p.store t (arith t.toWord (some d) op x y) := by
    unfold Place.plain
    rw [ht]
    simp only [hx, hy]
  have hid (res : Except Stop Int) : (res.map fun r => r) = res := by cases res <;> rfl
  rw [hplain, Place.store, if_pos hconverts, hcell]
  rw [hcell] at hwide
  simp only [hwide, if_false, hid]

/-! ## Where both forms leave the same -/

theorem ofResult_ne_refused (res : Except Stop Int) : Outcome.ofResult width res ≠ .refused := by
  cases res <;> exact nofun

theorem Place.plain_ne_refused (h : p.PlainFits e) : p.plain d op e c ≠ .refused := by
  obtain ⟨x, y, -, -, hplain⟩ := Place.plain_eq d op c h
  rw [hplain]
  exact ofResult_ne_refused _

theorem Place.compound_ne_refused (h : p.CompoundFits e) : p.compound d op e c ≠ .refused := by
  obtain ⟨y, hy, -⟩ := Place.compoundOperand_of_fits h
  rw [Place.compound_eq hy]
  split
  · exact nofun
  · exact ofResult_ne_refused _

theorem Place.compound_of_ring (h : p.CompoundFits e) (hp : p.PlainFits e) (hdiv : op ≠ .div)
    (hmod : op ≠ .mod) :
    p.compound d op e c =
      .left ((if p.ignoresOp then e.value else value op c e.value) % (2 ^ p.ty.width : Nat)) := by
  obtain ⟨y, hy, hvalue⟩ := Place.compoundOperand_of_fits h
  have hymod := hvalue hp.2.1
  rw [hp.1] at hymod
  rw [Place.compound_eq hy]
  split
  · exact left_eq_iff.mpr hymod
  · rw [hp.1]
    exact arith_of_ring hdiv hmod (by rw [p.word_width, hp.1]) rfl hymod

theorem Place.plain_of_ring (hp : p.PlainFits e) (hdiv : op ≠ .div) (hmod : op ≠ .mod) :
    p.plain d op e c = .left (value op c e.value % (2 ^ p.ty.width : Nat)) := by
  obtain ⟨x, y, hx, hy, hplain⟩ := Place.plain_eq d op c hp
  have hle : p.ty.width ≤ (pick p.readTy e.ty).width := p.le_readTy.trans (Nat.le_max_left _ _)
  have hdvd : ((2 ^ p.ty.width : Nat) : Int) ∣ (2 ^ (pick p.readTy e.ty).width : Nat) :=
    Int.natCast_dvd_natCast.mpr (Nat.pow_dvd_pow 2 hle)
  rw [hplain]
  exact arith_of_ring hdiv hmod hle ((hx.of_dvd hdvd).trans (p.ty.wrap_modEq c)) (hy.of_dvd hdvd)

theorem Place.compound_of_division (h : p.CompoundFits e) (hp : p.PlainFits e)
    (hop : op = .div ∨ op = .mod) :
    p.compound d op e c =
      if p.ignoresOp then .left (e.value % (2 ^ p.ty.width : Nat))
      else .ofResult p.ty.width ((p.compoundDivision d e c).run op) := by
  obtain ⟨y, hy, hvalue⟩ := Place.compoundOperand_of_fits h
  have hymod := hvalue hp.2.1
  rw [Place.compound_eq hy]
  split
  · rw [hp.1] at hymod
    exact left_eq_iff.mpr hymod
  · rw [← p.word_width] at hymod
    rw [arith_of_division hop, Word.wrap_eq_iff.mpr hymod, hp.1]
    rfl

theorem Place.plain_of_division (hp : p.PlainFits e) (hop : op = .div ∨ op = .mod) :
    p.plain d op e c = .ofResult p.ty.width ((p.plainDivision d e c).run op) := by
  obtain ⟨x, y, hx, hy, hplain⟩ := Place.plain_eq d op c hp
  have hholds : (pick p.readTy e.ty).wrap (p.ty.wrap c) = p.ty.wrap c :=
    (p.ty.holds_wrap c).of_le (p.le_readTy.trans (Nat.le_max_left _ _)) p.readTy_signed.symm
  rw [hplain, arith_of_division hop, Word.wrap_eq_iff.mpr hx, Word.wrap_eq_iff.mpr hy, hholds]
  rfl

theorem Place.agrees_of_ring (hdiv : op ≠ .div) (hmod : op ≠ .mod) :
    p.Agrees d op e c ↔
      (p.ignoresOp → value op c e.value ≡ e.value [ZMOD (2 ^ p.ty.width : Nat)]) := by
  cases op with
  | add | sub | mul => exact Iff.rfl
  | div => exact absurd rfl hdiv
  | mod => exact absurd rfl hmod

theorem Place.agrees_of_division (hop : op = .div ∨ op = .mod) :
    p.Agrees d op e c ↔
      if p.ignoresOp then (p.plainDivision d e c).Gives op p.ty.width e.value
      else (p.plainDivision d e c).Alike (p.compoundDivision d e c) op p.ty.width := by
  obtain rfl | rfl := hop <;> exact Iff.rfl

theorem Place.agrees_iff (h : p.CompoundFits e) (hp : p.PlainFits e) :
    p.compound d op e c = p.plain d op e c ↔ p.Agrees d op e c := by
  by_cases hop : op = .div ∨ op = .mod
  · rw [Place.compound_of_division h hp hop, Place.plain_of_division hp hop,
      Place.agrees_of_division hop]
    split
    · rw [eq_comm]
      exact ofResult_run_eq_left_iff
    · rw [eq_comm]
      exact ofResult_run_iff
  · have hdiv : op ≠ .div := fun h => hop (.inl h)
    have hmod : op ≠ .mod := fun h => hop (.inr h)
    rw [Place.compound_of_ring h hp hdiv hmod, Place.plain_of_ring hp hdiv hmod,
      Place.agrees_of_ring hdiv hmod, left_eq_iff]
    split
    · next hignores => simp only [hignores, forall_const, Int.modEq_comm]
    · next hheeds => simp [hheeds]

/-- Which assignments `p op= e` and `p = p op e` leave the same behind. -/
theorem compound_same_iff (p : Place) (d : DividePolicy) (op : ArithOp) (e : Rhs) (c : Int) :
    p.compound d op e c = p.plain d op e c ↔ p.Same d op e c := by
  by_cases hp : p.PlainFits e
  · by_cases hc : p.CompoundFits e
    · rw [Place.agrees_iff hc hp]
      simp [Place.Same, hc, hp]
    · rw [Place.compound_of_not_fits hc]
      refine iff_of_false (Place.plain_ne_refused hp).symm fun h => ?_
      exact hc (h.1.mpr hp)
  · rw [Place.plain_of_not_fits hp]
    by_cases hc : p.CompoundFits e
    · exact iff_of_false (Place.compound_ne_refused hc) fun h => hp (h.1.mp hc)
    · rw [Place.compound_of_not_fits hc]
      simp [Place.Same, hc, hp]

end

/-- `buf[0] += 2` where `buf[0]` is 1 leaves 2 and not 3. -/
theorem not_same :
    let p : Place := ⟨.arrayElement, int⟩
    let e : Rhs := ⟨.text 2, int⟩
    p.compound .zero .add e 1 = .left 2 ∧ p.plain .zero .add e 1 = .left 3 ∧
      p.compound .zero .add e 1 ≠ p.plain .zero .add e 1 := by
  decide

end Arche.Codegen.CompoundAssign
