import Arche.Codegen.IndexSort
import Mathlib.Algebra.Order.Group.Nat

/-!
# The key of a sort

The type of the key column decides how `emit_sort` compares two rows
(`emit_sort_before`) and which loop it sorts the index with: insertion for fewer than
32 rows, otherwise a radix sort over the bytes of the transformed key, otherwise a
heapsort. `rank` is the value a key stands for, a signed or unsigned integer or a
float, and has none for a float that is not a number.

`sortIndex_sorts`: whichever loop is chosen, the index is in the order of the ranks,
rows of one rank in the order of their numbers, if every row has a rank.
-/

namespace Arche.Codegen

open Arche.Lib
open Arche.Lib.Cells
open Arche.Codegen.IndexSort

inductive SortKeyKind
  | signed
  | unsigned
  | float
deriving DecidableEq, Repr

inductive IntWidth
  | w8
  | w16
  | w32
  | w64
  | w128
deriving DecidableEq, Repr

def IntWidth.bits : IntWidth → Nat
  | w8 => 8
  | w16 => 16
  | w32 => 32
  | w64 => 64
  | w128 => 128

/-- The types of a column: `int` is `int w32 true`, and `opaqueCell` is `opaque`. -/
inductive ElemType
  | int (width : IntWidth) (isSigned : Bool)
  | char
  | float
  | handle
  | opaqueCell
deriving DecidableEq, Repr

namespace ElemType

def bits : ElemType → Nat
  | int w _ => w.bits
  | char => 8
  | float => 32
  | handle | opaqueCell => 64

def sortKind : ElemType → SortKeyKind
  | int _ true => .signed
  | int _ false => .unsigned
  | float => .float
  | char | handle | opaqueCell => .signed

end ElemType

/-! ## Comparing -/

section Compare

variable {w : Nat}

/-- The place of a 32-bit float among the numbers, as a multiple of the smallest one. There is none
for the patterns above infinity. -/
def floatRank (x : BitVec w) : Option Int :=
  let magnitude : Nat := x.toNat % 2 ^ 31
  if 2139095040 < magnitude then none
  else some (if x.toNat / 2 ^ 31 = 1 then -(magnitude : Int) else magnitude)

def fcmpOlt (a b : BitVec w) : Bool :=
  match floatRank a, floatRank b with
  | some x, some y => x < y
  | _, _ => false

def fcmpOeq (a b : BitVec w) : Bool :=
  match floatRank a, floatRank b with
  | some x, some y => x = y
  | _, _ => false

def SortKeyKind.lt : SortKeyKind → BitVec w → BitVec w → Bool
  | float, a, b => fcmpOlt a b
  | unsigned, a, b => a.ult b
  | signed, a, b => a.slt b

def SortKeyKind.eq : SortKeyKind → BitVec w → BitVec w → Bool
  | float, a, b => fcmpOeq a b
  | unsigned, a, b | signed, a, b => a == b

/-- The `gt` operators are the `lt` operators with the operands exchanged. -/
def emitSortBefore (kind : SortKeyKind) (descending : Bool) (kva kvb : BitVec w)
    (idxa idxb : Nat) : Bool :=
  let lt := if descending then kind.lt kvb kva else kind.lt kva kvb
  lt || kind.eq kva kvb && decide (idxa < idxb)

/-! ## Digits -/

/-- `0` is "use heapsort". -/
def sortRadixPasses (kind : SortKeyKind) (width : Nat) : Nat :=
  if kind = .float then 0 else if 128 ≤ width then 0 else width / 8

def radixSign (width : Nat) : Int :=
  match width with
  | 8 => -128
  | 16 => -32768
  | 32 => -2147483648
  | _ => -9223372036854775808

def emitRadixTransform (kind : SortKeyKind) (descending : Bool) (kval : BitVec w) : BitVec w :=
  let x := if kind = .signed then kval ^^^ BitVec.ofInt w (radixSign w) else kval
  if descending then x ^^^ BitVec.ofInt w (-1) else x

def emitRadixByte (x : BitVec w) (pass : Nat) : Nat :=
  if 8 < w then ((x >>> (8 * pass)) &&& BitVec.ofNat w 255).toNat else x.toNat

end Compare

/-- The choice of `emit_sort` among the three loops. The second buffer of the radix sort is fresh
memory. -/
def sortIndex (t : ElemType) (descending : Bool) (key : Nat → BitVec t.bits) (idx : Cells Nat)
    (live : Nat) : Cells Nat :=
  let before := fun a b => emitSortBefore t.sortKind descending (key a) (key b) a b
  let passes := sortRadixPasses t.sortKind t.bits
  if live < 32 then emitIndexInsertion before idx live
  else if 0 < passes then
    emitIndexRadix (fun pass row =>
      emitRadixByte (emitRadixTransform t.sortKind descending (key row)) pass) passes live idx
      fun _ => 0
  else emitIndexHeapsort before idx live

/-! ## Ranks -/

section Rank

variable {w : Nat}

/-- The value of a key. -/
def SortKeyKind.rank : SortKeyKind → BitVec w → Option Int
  | signed, x => some x.toInt
  | unsigned, x => some x.toNat
  | float, x => floatRank x

/-- The order of a sort on the values of the keys. -/
def rankLt (descending : Bool) (x y : Int) : Prop := if descending then y < x else x < y

theorem lt_iff (kind : SortKeyKind) (a b : BitVec w) :
    kind.lt a b = true ↔ ∃ x y, kind.rank a = some x ∧ kind.rank b = some y ∧ x < y := by
  cases kind with
  | signed =>
    simp only [SortKeyKind.lt, SortKeyKind.rank, BitVec.slt_iff_toInt_lt, Option.some.injEq,
      exists_and_left, exists_eq_left']
  | unsigned =>
    simp only [SortKeyKind.lt, SortKeyKind.rank, BitVec.ult_iff_toNat_lt, Option.some.injEq,
      exists_and_left, exists_eq_left', Int.ofNat_lt]
  | float =>
    unfold SortKeyKind.lt SortKeyKind.rank fcmpOlt
    dsimp only
    split
    · next x y ha hb =>
      rw [decide_eq_true_eq]
      refine ⟨fun h => ⟨x, y, ha, hb, h⟩, ?_⟩
      rintro ⟨x', y', ha', hb', h⟩
      cases ha.symm.trans ha'
      cases hb.symm.trans hb'
      exact h
    · next hne =>
      refine ⟨fun h => absurd h Bool.false_ne_true, ?_⟩
      rintro ⟨x, y, ha, hb, -⟩
      exact absurd hb (hne x y ha)

theorem eq_iff (kind : SortKeyKind) (a b : BitVec w) :
    kind.eq a b = true ↔ ∃ x, kind.rank a = some x ∧ kind.rank b = some x := by
  cases kind with
  | signed =>
    simp only [SortKeyKind.eq, SortKeyKind.rank, beq_iff_eq, Option.some.injEq, exists_eq_left']
    exact ⟨fun h => by rw [h], fun h => BitVec.toInt_inj.mp h.symm⟩
  | unsigned =>
    simp only [SortKeyKind.eq, SortKeyKind.rank, beq_iff_eq, Option.some.injEq, exists_eq_left']
    exact ⟨fun h => by rw [h], fun h => BitVec.toNat_inj.mp (Int.ofNat_inj.mp h.symm)⟩
  | float =>
    unfold SortKeyKind.eq SortKeyKind.rank fcmpOeq
    dsimp only
    split
    · next x y ha hb =>
      rw [decide_eq_true_eq]
      constructor
      · rintro rfl
        exact ⟨x, ha, hb⟩
      · rintro ⟨z, ha', hb'⟩
        exact Option.some.inj (ha.symm.trans (ha'.trans (hb'.symm.trans hb)))
    · next hne =>
      refine ⟨fun h => absurd h Bool.false_ne_true, ?_⟩
      rintro ⟨x, ha, hb⟩
      exact absurd hb (hne x x ha)

/-- Row `a` comes before row `b`: by the values of their keys, then by number. -/
theorem emitSortBefore_iff (kind : SortKeyKind) (descending : Bool) (kva kvb : BitVec w)
    (idxa idxb : Nat) :
    emitSortBefore kind descending kva kvb idxa idxb = true ↔
      ∃ x y, kind.rank kva = some x ∧ kind.rank kvb = some y ∧
        (rankLt descending x y ∨ x = y ∧ idxa < idxb) := by
  unfold emitSortBefore rankLt
  dsimp only
  rw [Bool.or_eq_true, Bool.and_eq_true, decide_eq_true_eq, eq_iff]
  cases descending with
  | false =>
    simp only [Bool.false_eq_true, if_false, lt_iff]
    constructor
    · rintro (⟨x, y, hx, hy, h⟩ | ⟨⟨x, hx, hy⟩, h⟩)
      · exact ⟨x, y, hx, hy, .inl h⟩
      · exact ⟨x, x, hx, hy, .inr ⟨rfl, h⟩⟩
    · rintro ⟨x, y, hx, hy, h | ⟨rfl, h⟩⟩
      · exact .inl ⟨x, y, hx, hy, h⟩
      · exact .inr ⟨⟨x, hx, hy⟩, h⟩
  | true =>
    simp only [if_true, lt_iff]
    constructor
    · rintro (⟨y, x, hy, hx, h⟩ | ⟨⟨x, hx, hy⟩, h⟩)
      · exact ⟨x, y, hx, hy, .inl h⟩
      · exact ⟨x, x, hx, hy, .inr ⟨rfl, h⟩⟩
    · rintro ⟨x, y, hx, hy, h | ⟨rfl, h⟩⟩
      · exact .inl ⟨y, x, hy, hx, h⟩
      · exact .inr ⟨⟨x, hx, hy⟩, h⟩

theorem rankLt_trans {descending : Bool} {x y z : Int} (h₁ : rankLt descending x y)
    (h₂ : rankLt descending y z) : rankLt descending x z := by
  unfold rankLt at *
  cases descending with
  | false => exact Int.lt_trans h₁ h₂
  | true => exact Int.lt_trans h₂ h₁

theorem rankLt_total (descending : Bool) (x y : Int) :
    rankLt descending x y ∨ x = y ∨ rankLt descending y x := by
  unfold rankLt
  cases descending with
  | false => exact Int.lt_trichotomy x y
  | true =>
    rcases Int.lt_trichotomy y x with h | h | h
    · exact .inl h
    · exact .inr (.inl h.symm)
    · exact .inr (.inr h)

theorem strictOn_before (kind : SortKeyKind) (descending : Bool) (key : Nat → BitVec w) :
    StrictOn (fun a => (kind.rank (key a)).isSome = true)
      fun a b => emitSortBefore kind descending (key a) (key b) a b = true := by
  refine ⟨fun a b c hab hbc => ?_, fun a b ha hb hne hab => ?_⟩
  · rw [emitSortBefore_iff] at hab hbc ⊢
    obtain ⟨x, y, hx, hy, hxy⟩ := hab
    obtain ⟨y', z, hy', hz, hyz⟩ := hbc
    cases hy.symm.trans hy'
    refine ⟨x, z, hx, hz, ?_⟩
    rcases hxy with hxy | ⟨rfl, hab⟩
    · rcases hyz with hyz | ⟨rfl, -⟩
      · exact .inl (rankLt_trans hxy hyz)
      · exact .inl hxy
    · rcases hyz with hyz | ⟨rfl, hbc⟩
      · exact .inl hyz
      · exact .inr ⟨rfl, Nat.lt_trans hab hbc⟩
  · obtain ⟨x, hx⟩ := Option.isSome_iff_exists.mp ha
    obtain ⟨y, hy⟩ := Option.isSome_iff_exists.mp hb
    rw [emitSortBefore_iff] at hab ⊢
    refine ⟨y, x, hy, hx, ?_⟩
    rcases rankLt_total descending x y with h | rfl | h
    · exact absurd ⟨x, y, hx, hy, .inl h⟩ hab
    · refine .inr ⟨rfl, ?_⟩
      by_contra hle
      exact hab ⟨x, x, hx, hy, .inr ⟨rfl, by omega⟩⟩
    · exact .inl h

end Rank

/-! ## The transformed key -/

section Transform

variable {w : Nat}

theorem xor_two_pow {a i : Nat} (h : a < 2 ^ i) : a ^^^ 2 ^ i = a + 2 ^ i := by
  have hor := Nat.two_pow_add_eq_or_of_lt h 1
  rw [Nat.mul_one] at hor
  rw [Nat.add_comm, hor]
  refine Nat.eq_of_testBit_eq fun j => ?_
  rw [Nat.testBit_xor, Nat.testBit_or, Nat.testBit_two_pow]
  by_cases hj : i = j
  · subst hj
    rw [Nat.testBit_lt_two_pow h, Bool.false_xor, Bool.or_false]
  · rw [decide_eq_false hj, Bool.xor_false, Bool.false_or]

/-- Flipping the sign bit shifts the signed values to the unsigned ones. -/
theorem toNat_xor_intMin (hw : 0 < w) (x : BitVec w) :
    ((x ^^^ BitVec.intMin w).toNat : Int) = x.toInt + 2 ^ (w - 1) := by
  have htwo : 2 ^ w = 2 ^ (w - 1) + 2 ^ (w - 1) := by
    rw [← Nat.two_mul, ← Nat.pow_succ', Nat.succ_eq_add_one, Nat.sub_add_cancel hw]
  have hlt := x.isLt
  rw [BitVec.toNat_xor, BitVec.toNat_intMin_of_pos hw, BitVec.toInt_eq_toNat_cond]
  by_cases hx : x.toNat < 2 ^ (w - 1)
  · rw [xor_two_pow hx, if_pos (by omega)]
    push_cast
    rfl
  · obtain ⟨a, ha⟩ := Nat.exists_eq_add_of_le (Nat.le_of_not_lt hx)
    have hsmall : a < 2 ^ (w - 1) := by omega
    have hback : x.toNat ^^^ 2 ^ (w - 1) = a := by
      rw [ha, Nat.add_comm, ← xor_two_pow hsmall, Nat.xor_assoc, Nat.xor_self, Nat.xor_zero]
    rw [hback, if_neg (by omega), ha, htwo]
    push_cast
    omega

/-- The radix key of a key is its value up to a constant, with the other sign if the order is
descending. -/
theorem transform_rank {kind : SortKeyKind} (hkind : kind ≠ .float) (hw : 0 < w)
    (hsign : BitVec.ofInt w (radixSign w) = BitVec.intMin w) (descending : Bool) :
    ∃ c : Int, ∀ x : BitVec w, ∃ r, kind.rank x = some r ∧
      ((emitRadixTransform kind descending x).toNat : Int) =
        (if descending then -r else r) + c := by
  have hflip : ∀ y : BitVec w, ((y ^^^ BitVec.ofInt w (-1)).toNat : Int) = 2 ^ w - 1 - y.toNat := by
    intro y
    have hones : BitVec.ofInt w (-1) = BitVec.allOnes w := by
      rw [BitVec.ofInt_neg, ← BitVec.neg_one_eq_allOnes]
      rfl
    have hle : 1 + y.toNat ≤ 2 ^ w := by
      rw [Nat.add_comm]
      exact y.isLt
    rw [hones, BitVec.xor_allOnes, BitVec.toNat_not, Nat.sub_sub, Int.natCast_sub hle]
    push_cast
    omega
  have hbase : ∃ c : Int, ∀ x : BitVec w, ∃ r, kind.rank x = some r ∧
      (((if kind = .signed then x ^^^ BitVec.ofInt w (radixSign w) else x).toNat : Nat) : Int) =
        r + c := by
    cases kind with
    | signed =>
      refine ⟨2 ^ (w - 1), fun x => ⟨x.toInt, rfl, ?_⟩⟩
      rw [if_pos rfl, hsign]
      exact toNat_xor_intMin hw x
    | unsigned =>
      refine ⟨0, fun x => ⟨x.toNat, rfl, ?_⟩⟩
      rw [if_neg (by decide), Int.add_zero]
    | float => exact absurd rfl hkind
  obtain ⟨c, hbase⟩ := hbase
  unfold emitRadixTransform
  cases descending with
  | false => exact ⟨c, hbase⟩
  | true =>
    refine ⟨2 ^ w - 1 - c, fun x => ?_⟩
    obtain ⟨r, hr, he⟩ := hbase x
    refine ⟨r, hr, ?_⟩
    simp only [if_true]
    rw [hflip, he]
    omega

theorem emitRadixByte_eq (hw : 8 ∣ w) (hpos : 0 < w) (x : BitVec w) {pass : Nat}
    (hp : pass < w / 8) : emitRadixByte x pass = x.toNat / 256 ^ pass % 256 := by
  unfold emitRadixByte
  split
  · next h =>
    have hmask : 255 % 2 ^ w = 2 ^ 8 - 1 := by
      refine Nat.mod_eq_of_lt ?_
      exact Nat.lt_of_lt_of_le (by decide) (Nat.pow_le_pow_right (by decide) (Nat.le_of_lt h))
    rw [BitVec.toNat_and, BitVec.toNat_ushiftRight, BitVec.toNat_ofNat, hmask,
      Nat.and_two_pow_sub_one_eq_mod, Nat.shiftRight_eq_div_pow, Nat.pow_mul]
  · next h =>
    have hw8 : w = 8 := by omega
    subst hw8
    have hp0 : pass = 0 := by omega
    have hlt := x.isLt
    rw [hp0, Nat.pow_zero, Nat.div_one, Nat.mod_eq_of_lt hlt]

theorem two_pow_eq (hw : 8 ∣ w) : 2 ^ w = 256 ^ (w / 8) := by
  obtain ⟨m, rfl⟩ := hw
  rw [Nat.mul_div_cancel_left m (by decide), Nat.pow_mul]

end Transform

/-! ## The three loops -/

variable {t : ElemType} {idx : Cells Nat} {n : Nat}

/-- The types with digits. -/
theorem radix_types (h : 0 < sortRadixPasses t.sortKind t.bits) :
    t.sortKind ≠ .float ∧ 8 ∣ t.bits ∧ 0 < t.bits ∧
      sortRadixPasses t.sortKind t.bits = t.bits / 8 ∧
      BitVec.ofInt t.bits (radixSign t.bits) = BitVec.intMin t.bits := by
  revert h
  rcases t with ⟨w, s⟩ | _ | _ | _ | _
  · cases w <;> cases s <;> decide
  all_goals decide

theorem emitIndexRadix_sorts_keys (hpasses : 0 < sortRadixPasses t.sortKind t.bits)
    (descending : Bool) (key : Nat → BitVec t.bits) (hstart : (idx.first n).Pairwise (· < ·))
    (idx2 : Cells Nat) :
    Sorts (fun a b => emitSortBefore t.sortKind descending (key a) (key b) a b = true) n idx
      (emitIndexRadix (fun pass row =>
        emitRadixByte (emitRadixTransform t.sortKind descending (key row)) pass) (t.bits / 8) n
        idx idx2) := by
  obtain ⟨hkind, hdvd, hpos, -, hsign⟩ := radix_types hpasses
  obtain ⟨c, htrans⟩ := transform_rank hkind hpos hsign descending
  refine (emitIndexRadix_sorts
    (fun a => (emitRadixTransform t.sortKind descending (key a)).toNat)
    (fun p a hp => emitRadixByte_eq hdvd hpos _ hp) ?_ hstart idx2).imp fun a b hab => ?_
  · intro a
    have hlt := (emitRadixTransform t.sortKind descending (key a)).isLt
    rwa [two_pow_eq hdvd] at hlt
  · obtain ⟨x, hx, hxc⟩ := htrans (key a)
    obtain ⟨y, hy, hyc⟩ := htrans (key b)
    rw [emitSortBefore_iff]
    refine ⟨x, y, hx, hy, ?_⟩
    unfold rankLt
    cases descending <;> simp only [Bool.false_eq_true, if_false, if_true] at hxc hyc ⊢ <;> omega

theorem sortIndex_sorts (descending : Bool) (key : Nat → BitVec t.bits)
    (hrank : ∀ k, k < n → (t.sortKind.rank (key (idx k))).isSome = true)
    (hstart : (idx.first n).Pairwise (· < ·)) :
    Sorts (fun a b => emitSortBefore t.sortKind descending (key a) (key b) a b = true) n idx
      (sortIndex t descending key idx n) := by
  have hd : Distinct n idx := hstart.imp fun h => Nat.ne_of_lt h
  have ho := strictOn_before t.sortKind descending key
  unfold sortIndex
  dsimp only
  split
  · exact emitIndexInsertion_sorts ho hrank hd
  split
  · next hpasses =>
    rw [(radix_types hpasses).2.2.2.1]
    exact emitIndexRadix_sorts_keys hpasses descending key hstart fun _ => 0
  · exact emitIndexHeapsort_sorts ho hrank hd

end Arche.Codegen
