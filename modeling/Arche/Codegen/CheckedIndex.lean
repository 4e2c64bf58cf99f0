import Arche.Codegen.FailurePolicy
import Mathlib.Tactic.Common

/-!
# Checked indexing

`emit_index_policy` computes the length of the base of an index, cuts length and
index to 32 bits, and runs the bounds policy over the two. Each base form
reaches it with its own arguments, some with none.

`checked_iff` says for which forms, policies, index types and lengths an access
always stays in range with the index the policy gives for the exact value.
`not_checked` is a 64-bit index into a local array that is read at another
place.
-/

namespace Arche.Codegen.CheckedIndex

open FailurePolicy

/-- A static size, a row count or the length of a slice. Sizes and capacities are C `int`s, and a
slice views one of these. -/
structure Length where
  val : Nat
  lt : val < 2147483648

/-- The bases an index expression or an indexed assignment is compiled for. -/
inductive Base
  /-- A type-6 value with its count: a local `[N]T`, a string literal, an alias of a constant. -/
  | array (n : Length)
  | slice (len : Length)
  /-- A 1-D static array by its own name. -/
  | staticArray (isChar : Bool) (n : Length)
  /-- `M[i]` of a matrix constant. -/
  | matrix (rows : Length)
  /-- `M[i][j]`, `f()[j]` and `s[lo:hi][j]`. -/
  | nested (len : Length)
  /-- `P.col[i]`. -/
  | column (count : Length)
  /-- `col[i]` for a column bound by a query: with a width above 1 the index is in the row. -/
  | boundColumn (width count : Length)
  /-- `P.col[i]` where each row is `[N]T`. -/
  | shapedColumn (count : Length)
  /-- `P.col[i][j]`, and `r[j]` after `r := P.col[i]`. -/
  | shapedRow (width : Length)
  /-- `P.vec[i]` of a whole tuple group. -/
  | tupleColumn (count : Length)
  /-- `f[i]` for the binding of an `each_field`. -/
  | eachField (count : Length)

def Base.len : Base → Nat
  | .array n | .slice n | .staticArray _ n | .matrix n | .nested n | .column n | .shapedColumn n
  | .shapedRow n | .tupleColumn n | .eachField n => n.1
  | .boundColumn width count => if 1 < width.1 then width.1 else count.1

inductive Use
  | read
  | write
deriving DecidableEq, Repr

/-- What `emit_index_policy` gets or looks up for a base. `type6Bound` is -1 for a slice and 0 for
what is no type-6 value. -/
structure IndexArgs where
  applies : Bool := true
  type6Bound : Int := 0
  arrW : Nat := 0
  archCount : Option Nat := none
  sliceLen : Option Nat := none

/-- The length `emit_index_policy` finds. Without one it leaves the index as it is. -/
def IndexArgs.length? (a : IndexArgs) : Option Int :=
  if a.applies = false then none
  else if 0 < a.type6Bound then some a.type6Bound
  else if 0 < a.arrW then some a.arrW
  else (a.archCount.or a.sliceLen).map Int.ofNat

/-- The arguments at each place that indexes. -/
def Base.args : Base → Use → IndexArgs
  | .array n, _ => { type6Bound := n.1 }
  | .slice len, _ => { type6Bound := -1, sliceLen := some len.1 }
  -- only the char arrays are registered as values with a count
  | .staticArray isChar n, _ => { type6Bound := if isChar then n.1 else 0 }
  | .matrix rows, .read => { type6Bound := rows.1 }
  -- a write evaluates its base to a pointer and passes no length on
  | .matrix _, .write => {}
  | .nested len, .read => { sliceLen := some len.1 }
  | .nested _, .write => {}
  | .column count, _ => { archCount := some count.1 }
  | .boundColumn width count, _ =>
    { arrW := if 1 < width.1 then width.1 else 0, archCount := some count.1 }
  | .shapedColumn count, .read => { applies := false, archCount := some count.1 }
  | .shapedColumn count, .write => { archCount := some count.1 }
  | .shapedRow _, _ => { type6Bound := -1 }
  -- the gather of a whole tuple and the columns of `each_field` never call it
  | .tupleColumn count, .read => { applies := false, archCount := some count.1 }
  | .tupleColumn count, .write => { archCount := some count.1 }
  | .eachField _, _ => { applies := false }

/-- The forms whose index goes through the policy. -/
def Base.routed : Base → Use → Bool
  | .array n, _ => decide (0 < n.1)
  | .slice _, _ | .column _, _ | .boundColumn _ _, _ => true
  | .staticArray isChar n, _ => isChar && decide (0 < n.1)
  | .matrix rows, .read => decide (0 < rows.1)
  | .nested _, .read | .shapedColumn _, .write | .tupleColumn _, .write => true
  | .matrix _, .write | .nested _, .write | .shapedColumn _, .read | .tupleColumn _, .read => false
  | .shapedRow _, _ | .eachField _, _ => false

/-- An integer type of the language. -/
structure IntType where
  width : Nat
  isSigned : Bool
  width_mem : width ∈ [8, 16, 32, 64, 128]

def IntType.Holds (ty : IntType) (x : Int) : Prop :=
  if ty.isSigned then -2 ^ (ty.width - 1) ≤ x ∧ x < 2 ^ (ty.width - 1) else 0 ≤ x ∧ x < 2 ^ ty.width

def i64 (x : Int) : Int := (x + 9223372036854775808) % 18446744073709551616 - 9223372036854775808

/-- `emit_index_i64`. -/
def emitIndexI64 (ty : IntType) (x : Int) : Int := if ty.width < 64 then x else i64 x

/-- A `%` in a policy body is itself a division of the surrounding func or proc. -/
def remOf (inner : DividePolicy) (a b : Int) : Except Stop Int := do
  let (a', b') ← emitIntDivmod inner 32 false a b
  if DivOp.srem.Traps 32 a' b' then .error .undefined else return a'.tmod b'

/-- `emit_index_policy` on an access that was not elided: the index that is used. -/
def emitIndexPolicy (p : BoundsPolicy) (inner : DividePolicy) (len? : Option Int) (idx : Int) :
    Except Stop Int :=
  match len? with
  | none => .ok idx
  | some len => do
    let out ← emitPolicyInline (remOf inner) p.body [len, idx]
    return out.getD 1 0

/-- The index a compiled access uses, or how it stops. -/
def access (b : Base) (u : Use) (p : BoundsPolicy) (inner : DividePolicy) (ty : IntType)
    (idx : Int) : Except Stop Int :=
  emitIndexPolicy p inner (b.args u).length? (emitIndexI64 ty idx)

/-! ## What is promised -/

/-- The policy on exact integers. `none` is the exit. -/
def BoundsPolicy.exact (len idx : Int) : BoundsPolicy → Option Int
  | .abort => if 0 ≤ idx ∧ idx < len then some idx else none
  | .clamp =>
    let i := if idx < 0 then 0 else idx
    some (if len ≤ i then len - 1 else i)
  | .wrap => some (idx % len)

/-- The access exits, or uses the exact result of the policy, and that is in range. -/
def InRange (p : BoundsPolicy) (len idx : Int) : Except Stop Int → Prop
  | .error .exited => True
  | .error .undefined => False
  | .ok i => 0 ≤ i ∧ i < len ∧ BoundsPolicy.exact len idx p = some i

/-- An access stays in range for every value of its index type. -/
def Checked (b : Base) (u : Use) (p : BoundsPolicy) (inner : DividePolicy) (ty : IntType) : Prop :=
  ∀ idx, ty.Holds idx → InRange p b.len idx (access b u p inner ty idx)

/-- Every value of the type is an `i32`. -/
def IntType.FitsInt (ty : IntType) : Prop :=
  if ty.isSigned then ty.width ≤ 32 else ty.width < 32

def IntType.maxValue (ty : IntType) : Nat :=
  if ty.isSigned then 2 ^ (ty.width - 1) - 1 else 2 ^ ty.width - 1

/-- The index types and lengths a policy is right for. A `u32` that is cut turns negative, which
`abort` sees; a cut index keeps its remainder by a power of two. `wrap` adds the length to a
remainder on 32 bits, and its `%` by zero is left to the divide policy. -/
def BoundsPolicy.Right (inner : DividePolicy) (ty : IntType) (len : Nat) : BoundsPolicy → Prop
  | .abort => ty.FitsInt ∨ ty.width = 32 ∨ len = 0
  | .clamp => len = 1 ∨ (ty.FitsInt ∧ 0 < len)
  | .wrap =>
    (len = 0 ∧ inner = .abort) ∨
    (0 < len ∧ (len ∣ 4294967296 ∨
      (ty.FitsInt ∧ min (len - 1) ty.maxValue + len < 2147483648)))

/-! ## The length that is passed -/

theorem length?_eq (b : Base) (u : Use) :
    (b.args u).length? = if b.routed u then some (b.len : Int) else none := by
  cases b with
  | array n =>
    by_cases hn : 0 < n.1 <;> simp [Base.args, Base.routed, Base.len, IndexArgs.length?, hn]
  | slice n => rfl
  | staticArray isChar n =>
    cases isChar <;> by_cases hn : 0 < n.1 <;>
      simp [Base.args, Base.routed, Base.len, IndexArgs.length?, hn]
  | matrix n =>
    cases u <;> by_cases hn : 0 < n.1 <;>
      simp [Base.args, Base.routed, Base.len, IndexArgs.length?, hn]
  | nested n => cases u <;> rfl
  | column n => rfl
  | boundColumn width n =>
    by_cases hw : 1 < width.1
    · have hpos : 0 < width.1 := by omega
      simp [Base.args, Base.routed, Base.len, IndexArgs.length?, hw, hpos]
    · simp [Base.args, Base.routed, Base.len, IndexArgs.length?, hw]
  | shapedColumn n => cases u <;> rfl
  | shapedRow n => rfl
  | tupleColumn n => cases u <;> rfl
  | eachField n => rfl

theorem len_lt (b : Base) : b.len < 2147483648 := by
  cases b with
  | boundColumn width count =>
    rw [Base.len]
    split
    · exact width.2
    · exact count.2
  | array n => exact n.2
  | slice n => exact n.2
  | staticArray _ n => exact n.2
  | matrix n => exact n.2
  | nested n => exact n.2
  | column n => exact n.2
  | shapedColumn n => exact n.2
  | shapedRow n => exact n.2
  | tupleColumn n => exact n.2
  | eachField n => exact n.2

/-! ## The policies on 32 bits -/

theorem i32_i64 (x : Int) : i32 (i64 x) = i32 x := by
  unfold i32 i64
  omega

theorem i32_emitIndexI64 (ty : IntType) (x : Int) : i32 (emitIndexI64 ty x) = i32 x := by
  rw [emitIndexI64]
  split
  · rfl
  · exact i32_i64 x

section Bodies

variable (rem : Int → Int → Except Stop Int) (len j : Int)

theorem execAll_abort : execAll rem [len, j] BoundsPolicy.abort.body =
    if 0 ≤ j ∧ j < len then .ok [len, j] else .error .exited := by
  by_cases h0 : j < 0
  · simp [BoundsPolicy.body, execAll, PStmt.exec, PCond.eval, PExpr.eval, bind, Except.bind, pure,
      Except.pure, h0, Int.not_le.mpr h0]
  · by_cases h1 : j < len
    · simp [BoundsPolicy.body, execAll, PStmt.exec, PCond.eval, PExpr.eval, bind, Except.bind, pure,
        Except.pure, h0, h1, Int.not_lt.mp h0, Int.not_le.mpr h1]
    · simp [BoundsPolicy.body, execAll, PStmt.exec, PCond.eval, PExpr.eval, bind, Except.bind, pure,
        Except.pure, h0, h1, Int.not_lt.mp h1]

theorem execAll_clamp (h : i32 (len - 1) = len - 1) : execAll rem [len, j] BoundsPolicy.clamp.body =
    .ok [len, if len ≤ (if j < 0 then 0 else j) then len - 1 else (if j < 0 then 0 else j)] := by
  by_cases h0 : j < 0
  · by_cases h1 : len ≤ 0 <;>
    simp [BoundsPolicy.body, execAll, PStmt.exec, PCond.eval, PExpr.eval, bind, Except.bind, pure,
      Except.pure, h0, h1, h]
  · by_cases h1 : len ≤ j <;>
    simp [BoundsPolicy.body, execAll, PStmt.exec, PCond.eval, PExpr.eval, bind, Except.bind, pure,
      Except.pure, h0, h1, h]

theorem execAll_wrap : execAll rem [len, j] BoundsPolicy.wrap.body =
    (rem j len).bind fun m => (rem (i32 (m + len)) len).bind fun k => .ok [len, k] := by
  cases h : rem j len with
  | error e =>
    simp [BoundsPolicy.body, execAll, PStmt.exec, PExpr.eval, bind, Except.bind, h]
  | ok m =>
    cases h' : rem (i32 (m + len)) len with
    | error e =>
      simp [BoundsPolicy.body, execAll, PStmt.exec, PExpr.eval, bind, Except.bind, pure,
        Except.pure, h, h']
    | ok k =>
      simp [BoundsPolicy.body, execAll, PStmt.exec, PExpr.eval, bind, Except.bind, pure,
        Except.pure, h, h']

end Bodies

/-- Under `abort` and `clamp` the access uses the exact result for the index cut to 32 bits. -/
theorem emitIndexPolicy_exact {p : BoundsPolicy} (hp : p ≠ .wrap) (inner : DividePolicy) {len : Nat}
    (hlen : len < 2147483648) (x : Int) :
    emitIndexPolicy p inner (some len) x =
      match BoundsPolicy.exact len (i32 x) p with
      | none => .error .exited
      | some i => .ok i := by
  have hl : i32 len = len := i32_of_mem (by omega) (by omega)
  have hl1 : i32 ((len : Int) - 1) = len - 1 := i32_of_mem (by omega) (by omega)
  cases p with
  | wrap => exact absurd rfl hp
  | abort =>
    rw [emitIndexPolicy, emitPolicyInline, List.map_cons, List.map_cons, List.map_nil, hl,
      execAll_abort, BoundsPolicy.exact]
    split <;> rfl
  | clamp =>
    rw [emitIndexPolicy, emitPolicyInline, List.map_cons, List.map_cons, List.map_nil, hl,
      execAll_clamp _ _ _ hl1]
    rfl

/-! ## The arithmetic of `wrap` -/

theorem remOf_pos (inner : DividePolicy) {a len : Int} (ha : i32 a = a) (hlen : i32 len = len)
    (hpos : 0 < len) : remOf inner a len = .ok (a.tmod len) := by
  have hne : len ≠ 0 := by omega
  have hops : emitIntDivmod inner 32 false a len = .ok (a, len) := by
    rw [emitIntDivmod, if_pos ⟨rfl, rfl⟩]
    cases inner with
    | zero => rw [divideOperands_zero, hlen, ha, if_neg hne]
    | abort => rw [divideOperands_abort, hlen, ha, if_neg hne]
    | undefined => rw [divideOperands_undefined, hlen, ha]
  have hok : ¬ DivOp.srem.Traps 32 a len := by
    rintro (h | ⟨-, -, h⟩)
    · exact hne h
    · omega
  rw [remOf, hops]
  show (if DivOp.srem.Traps 32 a len then _ else _) = _
  rw [if_neg hok]
  rfl

theorem remOf_zero (inner : DividePolicy) (a : Int) :
    remOf inner a 0 =
      match inner with
      | .zero => .ok 0
      | .abort => .error .exited
      | .undefined => .error .undefined := by
  cases inner with
  | zero =>
    rw [remOf, emitIntDivmod, if_pos ⟨rfl, rfl⟩, divideOperands_zero]
    rfl
  | abort =>
    rw [remOf, emitIntDivmod, if_pos ⟨rfl, rfl⟩, divideOperands_abort]
    rfl
  | undefined =>
    rw [remOf, emitIntDivmod, if_pos ⟨rfl, rfl⟩, divideOperands_undefined]
    show (if DivOp.srem.Traps 32 (i32 a) (i32 0) then Except.error Stop.undefined
      else pure ((i32 a).tmod (i32 0))) = Except.error Stop.undefined
    exact if_pos (Or.inl rfl)

theorem tmod_bounds (j : Int) {len : Int} (h : 0 < len) : -len < j.tmod len ∧ j.tmod len < len :=
  ⟨Int.lt_tmod_of_pos j h, Int.tmod_lt_of_pos j h⟩

theorem wrap_pos (inner : DividePolicy) {len : Nat} (hlen : len < 2147483648) (hpos : 0 < len)
    (x : Int) :
    emitIndexPolicy .wrap inner (some len) x =
      .ok ((i32 ((i32 x).tmod len + len)).tmod len) := by
  have hl : i32 len = len := i32_of_mem (by omega) (by omega)
  have hpos' : (0 : Int) < len := by omega
  have hidem (y : Int) : i32 (i32 y) = i32 y := i32_of_mem (i32_mem y).1 (i32_mem y).2
  rw [emitIndexPolicy, emitPolicyInline, List.map_cons, List.map_cons, List.map_nil, hl,
    execAll_wrap, remOf_pos inner (hidem x) hl hpos', Except.bind, remOf_pos inner (hidem _) hl hpos']
  rfl

theorem wrap_zero (inner : DividePolicy) (x : Int) :
    emitIndexPolicy .wrap inner (some ((0 : Nat) : Int)) x =
      match inner with
      | .zero => .ok 0
      | .abort => .error .exited
      | .undefined => .error .undefined := by
  have h0 : i32 ((0 : Nat) : Int) = 0 := rfl
  rw [emitIndexPolicy, emitPolicyInline, List.map_cons, List.map_cons, List.map_nil, h0,
    execAll_wrap, remOf_zero]
  cases inner with
  | zero =>
    rw [Except.bind, remOf_zero]
    rfl
  | abort => rfl
  | undefined => rfl

/-- Without overflow `wrap` is the remainder. -/
theorem wrap_result_small {j len : Int} (hpos : 0 < len) (h : j.tmod len + len < 2147483648) :
    (i32 (j.tmod len + len)).tmod len = j % len := by
  have hb := tmod_bounds j hpos
  rw [i32_of_mem (by omega) h, Int.tmod_eq_emod_of_nonneg (by omega), Int.add_emod_right]
  have hd : j.tmod len = j - len * j.tdiv len := Int.tmod_def j len
  rw [hd, Int.sub_mul_emod_self_left]

/-- With overflow its result is negative or zero. -/
theorem wrap_result_big {j len : Int} (hpos : 0 < len) (hlen : len < 2147483648)
    (h : 2147483648 ≤ j.tmod len + len) : (i32 (j.tmod len + len)).tmod len ≤ 0 := by
  have hb := tmod_bounds j hpos
  have hneg : i32 (j.tmod len + len) ≤ 0 := by
    unfold i32
    omega
  have := Int.tmod_nonneg len (Int.neg_nonneg_of_nonpos hneg)
  rw [Int.neg_tmod] at this
  omega

theorem wrap_result_ne {m len : Nat} (hlen : len < 2147483648) (hm : m < len)
    (h : 2147483648 ≤ m + len) : (i32 ((i32 m).tmod len + len)).tmod len ≠ (m : Int) % len := by
  have hi : i32 m = m := i32_of_mem (by omega) (by omega)
  have he : (m : Int) % len = m := Int.emod_eq_of_lt (by omega) (by omega)
  have ht : (m : Int).tmod len = m := by rw [Int.tmod_eq_emod_of_nonneg (by omega), he]
  have := @wrap_result_big m len (by omega) (by omega) (by rw [ht]; omega)
  rw [hi, he]
  omega

/-- Cutting to 32 bits keeps the remainder by a divisor of `2 ^ 32`. -/
theorem i32_emod_of_dvd (x : Int) {len : Nat} (h : len ∣ 4294967296) : i32 x % len = x % len := by
  obtain ⟨k, hk⟩ := h
  have hq : i32 x = x - 4294967296 * ((x + 2147483648) / 4294967296) := by
    unfold i32
    omega
  have hk' : (4294967296 : Int) = len * k := by
    rw [← Int.natCast_mul, ← hk]
    rfl
  rw [hq, hk', Int.mul_assoc, Int.sub_mul_emod_self_left]

theorem le_of_dvd_two_pow {len : Nat} (hlen : len < 2147483648) (h : len ∣ 4294967296) :
    len ≤ 1073741824 := by
  obtain ⟨k, hk⟩ := h
  by_contra hbig
  have hk4 : k < 4 := by
    by_contra hk4
    have : len * 4 ≤ len * k := Nat.mul_le_mul_left len (by omega)
    omega
  have : k = 0 ∨ k = 1 ∨ k = 2 ∨ k = 3 := by omega
  rcases this with rfl | rfl | rfl | rfl <;> omega

theorem tmod_le_max (j len : Int) : j.tmod len ≤ max 0 j := by
  by_cases h : 0 ≤ j
  · have habs := Int.natAbs_tmod j len
    have hle : j.natAbs % len.natAbs ≤ j.natAbs := Nat.mod_le _ _
    omega
  · have := Int.tmod_nonneg len (a := -j) (by omega)
    rw [Int.neg_tmod] at this
    omega

/-! ## Index types -/

theorem holds_i32 {ty : IntType} (hf : ty.FitsInt) {x : Int} (hx : ty.Holds x) : i32 x = x := by
  obtain ⟨w, sg, hw⟩ := ty
  simp only [List.mem_cons, List.not_mem_nil, or_false] at hw
  rcases hw with rfl | rfl | rfl | rfl | rfl <;> cases sg <;>
    simp [IntType.FitsInt, IntType.Holds] at hf hx <;>
    exact i32_of_mem (by omega) (by omega)

theorem holds_maxValue_iff (ty : IntType) {x : Int} (hx : 0 ≤ x) : ty.Holds x ↔ x ≤ ty.maxValue := by
  obtain ⟨w, sg, hw⟩ := ty
  simp only [List.mem_cons, List.not_mem_nil, or_false] at hw
  rcases hw with rfl | rfl | rfl | rfl | rfl <;> cases sg <;>
    simp [IntType.maxValue, IntType.Holds] <;> omega

theorem holds_zero (ty : IntType) : ty.Holds 0 :=
  (holds_maxValue_iff ty (Int.le_refl 0)).mpr (Int.natCast_nonneg _)

/-- A type with values outside `i32` has all of the `u32`s. -/
theorem holds_of_not_fits {ty : IntType} (hf : ¬ ty.FitsInt) {x : Int} (h₁ : 0 ≤ x)
    (h₂ : x < 4294967296) : ty.Holds x := by
  obtain ⟨w, sg, hw⟩ := ty
  simp only [List.mem_cons, List.not_mem_nil, or_false] at hw
  rcases hw with rfl | rfl | rfl | rfl | rfl <;> cases sg <;>
    simp [IntType.FitsInt, IntType.Holds] at hf ⊢ <;> omega

/-! ## When an access is checked -/

/-- All accesses through the policy with length `len` stay in range. -/
def PolicyChecked (p : BoundsPolicy) (inner : DividePolicy) (ty : IntType) (len : Nat) : Prop :=
  ∀ idx, ty.Holds idx →
    InRange p len idx (emitIndexPolicy p inner (some len) (emitIndexI64 ty idx))

section Policies

variable {inner : DividePolicy} {ty : IntType} {len : Nat}

theorem policyChecked_abort (hlen : len < 2147483648) :
    PolicyChecked .abort inner ty len ↔ BoundsPolicy.Right inner ty len .abort := by
  have hres (idx : Int) : emitIndexPolicy .abort inner (some len) (emitIndexI64 ty idx) =
      if 0 ≤ i32 idx ∧ i32 idx < len then .ok (i32 idx) else .error .exited := by
    rw [emitIndexPolicy_exact (by decide) inner hlen, i32_emitIndexI64, BoundsPolicy.exact]
    by_cases h : 0 ≤ i32 idx ∧ i32 idx < len
    · rw [if_pos h, if_pos h]
    · rw [if_neg h, if_neg h]
  -- an index that is cut and still lands in the range is the only way to fail
  have hiff : PolicyChecked .abort inner ty len ↔
      ∀ idx, ty.Holds idx → 0 ≤ i32 idx → i32 idx < len → i32 idx = idx := by
    constructor
    · intro h idx hidx h₁ h₂
      have := h idx hidx
      rw [hres, if_pos ⟨h₁, h₂⟩] at this
      obtain ⟨-, -, hexact⟩ := this
      rw [BoundsPolicy.exact] at hexact
      split at hexact
      · exact (Option.some.inj hexact).symm
      · cases hexact
    · intro h idx hidx
      rw [hres]
      split
      · next hin =>
        have heq := h idx hidx hin.1 hin.2
        rw [heq] at hin ⊢
        exact ⟨hin.1, hin.2, if_pos hin⟩
      · trivial
  rw [hiff]
  constructor
  · intro h
    by_cases hf : ty.FitsInt
    · exact .inl hf
    by_cases hw : ty.width = 32
    · exact .inr (.inl hw)
    refine .inr (.inr ?_)
    by_contra hne
    have hbig : ty.Holds 4294967296 := by
      obtain ⟨w, sg, hmem⟩ := ty
      simp only [List.mem_cons, List.not_mem_nil, or_false] at hmem
      rcases hmem with rfl | rfl | rfl | rfl | rfl <;> cases sg <;>
        simp [IntType.FitsInt, IntType.Holds] at hf hw ⊢
    have hcut : i32 4294967296 = 0 := rfl
    have := h 4294967296 hbig (Int.le_of_eq hcut.symm) (by rw [hcut]; omega)
    rw [hcut] at this
    cases this
  · rintro (hf | hw | rfl) idx hidx h₁ h₂
    · exact holds_i32 hf hidx
    · obtain ⟨w, sg, hmem⟩ := ty
      simp only at hw
      subst hw
      unfold i32 at h₁ ⊢
      cases sg <;> simp [IntType.Holds] at hidx <;> omega
    · omega

theorem policyChecked_clamp (hlen : len < 2147483648) :
    PolicyChecked .clamp inner ty len ↔ BoundsPolicy.Right inner ty len .clamp := by
  have hiff : PolicyChecked .clamp inner ty len ↔
      ∀ idx, ty.Holds idx → 0 < len ∧
        BoundsPolicy.exact len (i32 idx) .clamp = BoundsPolicy.exact len idx .clamp := by
    refine forall₂_congr fun idx hidx => ?_
    rw [emitIndexPolicy_exact (by decide) inner hlen, i32_emitIndexI64]
    show (_ ∧ _ ∧ _ = _) ↔ _
    constructor
    · rintro ⟨h₁, h₂, h₃⟩
      exact ⟨by omega, h₃.symm⟩
    · rintro ⟨h₁, h₂⟩
      refine ⟨?_, ?_, h₂.symm⟩ <;> split <;> split <;> omega
  rw [hiff]
  constructor
  · intro h
    have hpos := (h 0 (holds_zero ty)).1
    by_cases hf : ty.FitsInt
    · exact .inr ⟨hf, hpos⟩
    -- `2 ^ 31` is cut to a negative value
    have := (h 2147483648 (holds_of_not_fits hf (by decide) (by decide))).2
    have hcut : i32 2147483648 = -2147483648 := rfl
    rw [hcut] at this
    simp only [BoundsPolicy.exact, Option.some.injEq] at this
    refine .inl ?_
    split at this <;> split at this <;> omega
  · rintro (rfl | ⟨hf, hpos⟩) idx hidx
    · have hone (j : Int) : BoundsPolicy.exact (1 : Nat) j .clamp = some 0 := by
        simp only [BoundsPolicy.exact, Option.some.injEq]
        split <;> split <;> omega
      exact ⟨by decide, by rw [hone, hone]⟩
    · rw [holds_i32 hf hidx]
      exact ⟨hpos, rfl⟩

theorem policyChecked_wrap_zero :
    PolicyChecked .wrap inner ty 0 ↔ inner = .abort := by
  constructor
  · intro h
    have h0 := h 0 (holds_zero ty)
    rw [wrap_zero] at h0
    cases inner with
    | zero => exact absurd h0.2.1 (by decide)
    | abort => rfl
    | undefined => exact h0.elim
  · rintro rfl idx -
    rw [wrap_zero]
    trivial

theorem policyChecked_wrap_pos (hlen : len < 2147483648) (hpos : 0 < len) :
    PolicyChecked .wrap inner ty len ↔
      len ∣ 4294967296 ∨ (ty.FitsInt ∧ min (len - 1) ty.maxValue + len < 2147483648) := by
  have hpos' : (0 : Int) < len := by omega
  have hlen' : (len : Int) < 2147483648 := by omega
  have hiff : PolicyChecked .wrap inner ty len ↔
      ∀ idx, ty.Holds idx → (i32 ((i32 idx).tmod len + len)).tmod len = idx % len := by
    refine forall₂_congr fun idx hidx => ?_
    rw [wrap_pos inner hlen hpos, i32_emitIndexI64]
    constructor
    · rintro ⟨-, -, h⟩
      exact (Option.some.inj h).symm
    · intro h
      rw [h]
      exact ⟨Int.emod_nonneg _ (by omega), Int.emod_lt_of_pos _ hpos', rfl⟩
  rw [hiff]
  constructor
  · intro h
    have hsum : min (len - 1) ty.maxValue + len < 2147483648 := by
      by_contra hbig
      have hle : ((min (len - 1) ty.maxValue : Nat) : Int) ≤ ty.maxValue := by omega
      have hm := h (min (len - 1) ty.maxValue : Nat)
        ((holds_maxValue_iff ty (by omega)).mpr hle)
      exact wrap_result_ne hlen (by omega) (by omega) hm
    by_cases hf : ty.FitsInt
    · exact .inr ⟨hf, hsum⟩
    -- the greatest `u32` is cut to `-1`
    have hm := h 4294967295 (holds_of_not_fits hf (by decide) (by decide))
    have hcut : i32 4294967295 = -1 := rfl
    have htm : (-1 : Int).tmod len ≤ 0 := tmod_le_max (-1) len
    rw [hcut, wrap_result_small hpos' (by omega), Int.emod_eq_emod_iff_emod_sub_eq_zero] at hm
    have hdvd : (len : Int) ∣ -4294967296 := Int.dvd_of_emod_eq_zero hm
    rw [Int.dvd_neg] at hdvd
    exact .inl (Int.natCast_dvd_natCast.mp hdvd)
  · rintro (hdvd | ⟨hf, hsum⟩) idx hidx
    · have hle := le_of_dvd_two_pow hlen hdvd
      have hb := tmod_bounds (i32 idx) hpos'
      rw [wrap_result_small hpos' (by omega), i32_emod_of_dvd idx hdvd]
    · rw [holds_i32 hf hidx]
      refine wrap_result_small hpos' ?_
      have hb := tmod_bounds idx hpos'
      have hle := tmod_le_max idx len
      by_cases h0 : 0 ≤ idx
      · have := (holds_maxValue_iff ty h0).mp hidx
        omega
      · omega

theorem policyChecked_iff (p : BoundsPolicy) (hlen : len < 2147483648) :
    PolicyChecked p inner ty len ↔ BoundsPolicy.Right inner ty len p := by
  cases p with
  | abort => exact policyChecked_abort hlen
  | clamp => exact policyChecked_clamp hlen
  | wrap =>
    rcases Nat.eq_zero_or_pos len with rfl | hpos
    · rw [policyChecked_wrap_zero]
      simp [BoundsPolicy.Right]
    · have hne : ¬ (len = 0 ∧ inner = .abort) := fun h => by omega
      rw [policyChecked_wrap_pos hlen hpos, BoundsPolicy.Right, and_iff_right hpos,
        or_iff_right hne]

/-- An index that goes to the access as it is. -/
theorem raw_iff (p : BoundsPolicy) (hlen : len < 2147483648) :
    (∀ idx, ty.Holds idx → InRange p len idx (.ok (emitIndexI64 ty idx))) ↔
      ty.isSigned = false ∧ 2 ^ ty.width ≤ len := by
  have hexact {idx : Int} (h₁ : 0 ≤ idx) (h₂ : idx < len) :
      BoundsPolicy.exact len idx p = some idx := by
    cases p with
    | abort => exact if_pos ⟨h₁, h₂⟩
    | clamp =>
      simp only [BoundsPolicy.exact]
      rw [if_neg (by omega), if_neg (by omega)]
    | wrap => rw [BoundsPolicy.exact, Int.emod_eq_of_lt h₁ h₂]
  obtain ⟨w, sg, hmem⟩ := ty
  simp only [List.mem_cons, List.not_mem_nil, or_false] at hmem
  cases sg with
  | true =>
    -- `-1` is a value of every signed type
    refine ⟨fun h => ?_, fun h => by cases h.1⟩
    have hneg := (h (-1) ?_).1
    · rw [emitIndexI64] at hneg
      split at hneg <;> exact absurd hneg (by decide)
    · rcases hmem with rfl | rfl | rfl | rfl | rfl <;> simp [IntType.Holds]
  | false =>
    refine ⟨fun h => ⟨rfl, ?_⟩, ?_⟩
    · -- a narrow type has a greatest value, a wide one has `2 ^ 31`
      rcases hmem with rfl | rfl | hwide
      · have := (h 255 (by simp [IntType.Holds])).2.1
        simp only [emitIndexI64] at this ⊢
        omega
      · have := (h 65535 (by simp [IntType.Holds])).2.1
        simp only [emitIndexI64] at this ⊢
        omega
      · have hout : emitIndexI64 ⟨w, false, by simp [hwide]⟩ 2147483648 = 2147483648 := by
          rw [emitIndexI64]
          split <;> rfl
        have := (h 2147483648 (by rcases hwide with rfl | rfl | rfl <;> simp [IntType.Holds])).2.1
        rw [hout] at this
        omega
    · rintro ⟨-, hle⟩ idx hidx
      have hin : 0 ≤ idx ∧ idx < len := by
        rcases hmem with rfl | rfl | rfl | rfl | rfl <;> simp [IntType.Holds] at hidx hle <;> omega
      have hnarrow : w < 64 := by
        rcases hmem with rfl | rfl | rfl | rfl | rfl <;> simp at hle ⊢ <;> omega
      rw [emitIndexI64, if_pos hnarrow]
      exact ⟨hin.1, hin.2, hexact hin.1 hin.2⟩

end Policies

/-- When an access stays in range for every value of its index: the base form goes through the
policy, and the policy is right for the type of the index and the length; or the base form does not,
and the type of the index is unsigned and has no value beyond the length. -/
theorem checked_iff (b : Base) (u : Use) (p : BoundsPolicy) (inner : DividePolicy) (ty : IntType) :
    Checked b u p inner ty ↔
      (b.routed u = true ∧ BoundsPolicy.Right inner ty b.len p) ∨
      (b.routed u = false ∧ ty.isSigned = false ∧ 2 ^ ty.width ≤ b.len) := by
  cases hr : b.routed u with
  | true =>
    have hacc (idx : Int) : access b u p inner ty idx =
        emitIndexPolicy p inner (some b.len) (emitIndexI64 ty idx) := by
      rw [access, length?_eq, hr, if_pos rfl]
    rw [Checked]
    simp only [hacc, true_and, Bool.true_eq_false, false_and, or_false]
    exact policyChecked_iff p (len_lt b)
  | false =>
    have hacc (idx : Int) : access b u p inner ty idx = .ok (emitIndexI64 ty idx) := by
      rw [access, length?_eq, hr]
      rfl
    rw [Checked]
    simp only [hacc, true_and, Bool.false_eq_true, false_and, false_or]
    exact raw_iff p (len_lt b)

/-- The `i64` index `2 ^ 32` into a local array of one element, under `abort`. -/
theorem not_checked : ¬ ∀ (b : Base) (u : Use) (p : BoundsPolicy) (inner : DividePolicy)
    (ty : IntType), Checked b u p inner ty := by
  intro h
  have hread : access (.array ⟨1, by decide⟩) .read .abort .abort ⟨64, true, by decide⟩ 4294967296 =
      .ok 0 := rfl
  have hheld : IntType.Holds ⟨64, true, by decide⟩ 4294967296 := by simp [IntType.Holds]
  have hall := h (.array ⟨1, by decide⟩) .read .abort .abort ⟨64, true, by decide⟩
  rw [Checked] at hall
  have hin := hall _ hheld
  rw [hread] at hin
  exact absurd hin.2.2 (by decide)

end Arche.Codegen.CheckedIndex
