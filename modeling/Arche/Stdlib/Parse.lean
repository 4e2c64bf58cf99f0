import Arche.Lib.Word
import Mathlib.Data.List.TakeWhile
import Mathlib.Tactic.Common

/-!
# `parse.atoi`

A slice is the list of its bytes. Its length is an `i64`, and `.length` truncates that to the `int`
that the accessor yields. Bytes from 128 on are neither digits nor a minus, also as signed `char`s.

1. `atoi_eq`: in a text with an `int` length, `atoi` is the number at its head up to wrapping.
2. `atoi_inverts`: it reads back decimal text, and digit strings of any value modulo `2 ^ 32`.
3. `not_atoi_inverts`: a text of `2 ^ 31` bytes has a negative `.length` and reads as `0`.
-/

namespace Arche.Stdlib

open Arche.Lib

/-- The type `int`. -/
def int : Word := ⟨32, true⟩

/-- `.length` of a slice. -/
def lengthOf (s : List UInt8) : Int := int.wrap s.length

theorem lengthOf_eq {s : List UInt8} (h : s.length < 2 ^ 31) : lengthOf s = s.length := by
  have hword : int.Holds s.length := by
    rw [Word.holds_iff]
    simp only [int, if_true]
    omega
  exact hword

namespace Parse

abbrev minus : UInt8 := 45
abbrev zero : UInt8 := 48
abbrev nine : UInt8 := 57

/-! ## The source -/

/-- The loop of `atoi` from `i` on. In its rounds `i` is below `.length`. -/
def atoiLoop (s : List UInt8) : Nat → Nat → Int → Int
  | 0, _, n => n
  | k + 1, i, n =>
    match s[i]? with
    | none => n
    | some ch =>
      if ch < zero then n
      else if nine < ch then n
      else atoiLoop s k (i + 1) (int.wrap (int.wrap (n * 10) + (ch.toNat - zero.toNat)))

/-- `s.length > 0 && s[0] == '-'` -/
def startsNegative (s : List UInt8) : Bool := 0 < lengthOf s && s.head? == some minus

/-- `atoi` -/
def atoi (s : List UInt8) : Int :=
  if startsNegative s then int.wrap (-1 * atoiLoop s (lengthOf s - 1).toNat 1 0)
  else int.wrap (1 * atoiLoop s (lengthOf s).toNat 0 0)

/-! ## Decimal texts -/

def isDigit (ch : UInt8) : Bool := zero ≤ ch && ch ≤ nine

/-- The number that digits denote. -/
def value (ds : List UInt8) : Nat := ds.foldl (fun n d => n * 10 + (d.toNat - zero.toNat)) 0

/-- Digits behind an optional minus. -/
def signed (negative : Bool) (ds : List UInt8) : List UInt8 := if negative then minus :: ds else ds

/-- The integer that they denote. -/
def denoted (negative : Bool) (ds : List UInt8) : Int := if negative then -value ds else value ds

/-- The text that prints `v`. -/
def decimal (v : Int) : List UInt8 := (toString v).toList.map fun c => UInt8.ofNat c.toNat

/-- The loop is the value of the digits at `i`, up to wrapping. -/
theorem atoiLoop_eq {s : List UInt8} {k i : Nat} (h : s.length ≤ i + k) (n : Nat) :
    atoiLoop s k i (int.wrap n) = int.wrap (((s.drop i).takeWhile isDigit).foldl
      (fun n d => n * 10 + (d.toNat - zero.toNat)) n : Nat) := by
  induction k generalizing i n with
  | zero =>
    rw [List.drop_eq_nil_of_le (by omega)]
    rfl
  | succ k ih =>
    unfold atoiLoop
    cases hget : s[i]? with
    | none =>
      rw [List.drop_eq_nil_of_le (List.getElem?_eq_none_iff.1 hget)]
      rfl
    | some ch =>
      obtain ⟨hi, rfl⟩ := List.getElem?_eq_some_iff.1 hget
      rw [List.drop_eq_getElem_cons hi]
      dsimp only
      by_cases hdigit : isDigit s[i] = true
      · obtain ⟨hlo, hhi⟩ : zero ≤ s[i] ∧ s[i] ≤ nine := by simpa [isDigit] using hdigit
        have hval : zero.toNat ≤ s[i].toNat := hlo
        have hstep : int.wrap (int.wrap (int.wrap n * 10) + (s[i].toNat - zero.toNat)) =
            int.wrap (n * 10 + (s[i].toNat - zero.toNat) : Nat) := by
          refine Word.wrap_eq_iff.2 ?_
          have hmul := ((int.wrap_modEq (int.wrap n * 10)).trans
            ((int.wrap_modEq n).mul_right 10)).add_right (s[i].toNat - zero.toNat : Int)
          rw [Nat.cast_add, Nat.cast_mul, Nat.cast_sub hval]
          exact hmul
        rw [if_neg (UInt8.not_lt.2 hlo), if_neg (UInt8.not_lt.2 hhi), hstep,
          ih (by omega), List.takeWhile_cons_of_pos hdigit]
        rfl
      · rw [List.takeWhile_cons_of_neg hdigit]
        have hout : s[i] < zero ∨ nine < s[i] := by
          by_contra hin
          rw [not_or, UInt8.not_lt, UInt8.not_lt] at hin
          exact hdigit (by simpa [isDigit] using hin)
        rcases hout with hlo | hhi
        · rw [if_pos hlo]
          rfl
        · rw [if_pos hhi, ite_self]
          rfl

/-- `atoi` of a text with an `int` length: the digits at its head, behind a minus. -/
theorem atoi_eq {s : List UInt8} (h : s.length < 2 ^ 31) :
    atoi s = if s.head? = some minus then int.wrap (denoted true (s.tail.takeWhile isDigit))
      else int.wrap (denoted false (s.takeWhile isDigit)) := by
  have hstart : startsNegative s = true ↔ s.head? = some minus := by
    rw [startsNegative, lengthOf_eq h]
    cases s with
    | nil => simp
    | cons ch s => simp
  unfold atoi
  rw [lengthOf_eq h]
  by_cases hminus : s.head? = some minus
  · have hloop := atoiLoop_eq (s := s) (k := ((s.length : Int) - 1).toNat) (i := 1) (by omega) 0
    rw [if_pos (hstart.2 hminus), if_pos hminus, show (0 : Int) = int.wrap (0 : Nat) from rfl,
      hloop, List.drop_one, Int.neg_one_mul, Word.wrap_neg]
    rfl
  · have hloop := atoiLoop_eq (s := s) (k := (s.length : Int).toNat) (i := 0) (by omega) 0
    rw [if_neg (fun hs => hminus (hstart.1 hs)), if_neg hminus,
      show (0 : Int) = int.wrap (0 : Nat) from rfl, hloop, List.drop_zero, Int.one_mul,
      Word.wrap_wrap]
    rfl

/-! ## What is at the head of a text -/

theorem takeWhile_isDigit {ds suffix : List UInt8} (hds : ∀ d ∈ ds, isDigit d = true)
    (hsuffix : ∀ ch ∈ suffix.head?, isDigit ch = false) :
    (ds ++ suffix).takeWhile isDigit = ds := by
  rw [List.takeWhile_append_of_pos hds]
  cases suffix with
  | nil => simp
  | cons ch suffix => simp [hsuffix ch rfl]

theorem atoi_signed {negative : Bool} {ds suffix : List UInt8}
    (hds : ∀ d ∈ ds, isDigit d = true) (hsuffix : ∀ ch ∈ suffix.head?, isDigit ch = false)
    (hsign : negative = true ∨ ds ≠ [] ∨ suffix = [])
    (hlen : (signed negative ds ++ suffix).length < 2 ^ 31) :
    atoi (signed negative ds ++ suffix) = int.wrap (denoted negative ds) := by
  rw [atoi_eq hlen]
  cases negative with
  | true =>
    rw [if_pos (by rfl)]
    exact congrArg (fun ds => int.wrap (denoted true ds)) (takeWhile_isDigit hds hsuffix)
  | false =>
    have hplain : ¬ (ds ++ suffix).head? = some minus := by
      cases ds with
      | nil =>
        obtain rfl : suffix = [] := by simpa using hsign
        simp
      | cons d ds =>
        rintro hd
        have hdigit := hds d List.mem_cons_self
        rw [show d = minus from Option.some.inj hd] at hdigit
        cases hdigit
    refine (if_neg hplain).trans ?_
    exact congrArg (fun ds => int.wrap (denoted false ds)) (takeWhile_isDigit hds hsuffix)

/-- A NUL ends the number. -/
theorem atoi_append_nul {s : List UInt8} (junk : List UInt8)
    (hlen : (s ++ 0 :: junk).length < 2 ^ 31) : atoi (s ++ 0 :: junk) = atoi s := by
  have hs : s.length < 2 ^ 31 := by
    rw [List.length_append] at hlen
    omega
  have hcut : ∀ t : List UInt8, (t ++ 0 :: junk).takeWhile isDigit = t.takeWhile isDigit := by
    intro t
    induction t with
    | nil => rfl
    | cons ch t ih => rw [List.cons_append, List.takeWhile_cons, List.takeWhile_cons, ih]
  rw [atoi_eq hlen, atoi_eq hs]
  cases s with
  | nil => rfl
  | cons ch s =>
    refine ite_congr rfl (fun _ => ?_) fun _ => by rw [hcut]
    show int.wrap (denoted true ((s ++ 0 :: junk).takeWhile isDigit)) = _
    rw [hcut]
    rfl

/-! ## Printing -/

theorem value_append (ds : List UInt8) (d : UInt8) :
    value (ds ++ [d]) = value ds * 10 + (d.toNat - zero.toNat) := by
  rw [value, List.foldl_append]
  rfl

theorem toNat_digitByte {n : Nat} (h : n < 10) :
    (UInt8.ofNat n.digitChar.toNat).toNat = zero.toNat + n := by
  rw [Nat.toNat_digitChar_of_lt_ten h, UInt8.toNat_ofNat_of_lt']
  · rfl
  · show 48 + n < 256
    omega

/-- The digits that print a number are digits and denote it. -/
theorem toDigits_spec (n : Nat) :
    (∀ d ∈ (Nat.toDigits 10 n).map fun c => UInt8.ofNat c.toNat, isDigit d = true) ∧
      value ((Nat.toDigits 10 n).map fun c => UInt8.ofNat c.toNat) = n := by
  induction n using Nat.strongRecOn with
  | ind n ih =>
    have hbyte : ∀ m, m < 10 → isDigit (UInt8.ofNat m.digitChar.toNat) = true := by
      intro m hm
      have hval := toNat_digitByte hm
      simp only [isDigit, Bool.and_eq_true, decide_eq_true_eq, UInt8.le_iff_toNat_le, hval]
      exact ⟨Nat.le_add_right _ _, show 48 + m ≤ 57 by omega⟩
    by_cases hn : n < 10
    · rw [Nat.toDigits_of_lt_base hn]
      refine ⟨by simpa using hbyte n hn, ?_⟩
      show 0 * 10 + ((UInt8.ofNat n.digitChar.toNat).toNat - zero.toNat) = n
      rw [toNat_digitByte hn]
      omega
    · obtain ⟨hdigits, hvalue⟩ := ih (n / 10) (by omega)
      have hmod : n % 10 < 10 := Nat.mod_lt n (by decide)
      rw [Nat.toDigits_of_base_le (by decide) (by omega), List.map_append, List.map_singleton]
      refine ⟨fun d hd => ?_, ?_⟩
      · rcases List.mem_append.1 hd with hd | hd
        · exact hdigits d hd
        · rw [List.mem_singleton.1 hd]
          exact hbyte _ hmod
      · rw [value_append, hvalue, toNat_digitByte hmod]
        omega

/-- Decimal text is an optional minus and the digits of the number. -/
theorem decimal_eq (v : Int) : ∃ negative ds, decimal v = signed negative ds ∧ ds ≠ [] ∧
    (∀ d ∈ ds, isDigit d = true) ∧ denoted negative ds = v := by
  have hne : ∀ n, (Nat.toDigits 10 n).map (fun c => UInt8.ofNat c.toNat) ≠ [] := by
    intro n h
    exact Nat.toDigits_ne_nil (List.map_eq_nil_iff.1 h)
  by_cases hv : v < 0
  · obtain ⟨hdigits, hvalue⟩ := toDigits_spec (-v).toNat
    refine ⟨true, _, ?_, hne _, hdigits, ?_⟩
    · rw [decimal, Int.toString_eq_repr, Int.repr_eq_if, if_neg (by omega), String.toList_append,
        List.map_append, Nat.toList_repr]
      rfl
    · rw [denoted, if_pos rfl, hvalue]
      omega
  · obtain ⟨hdigits, hvalue⟩ := toDigits_spec v.toNat
    refine ⟨false, _, ?_, hne _, hdigits, ?_⟩
    · rw [decimal, Int.toString_eq_repr, Int.repr_eq_if, if_pos (by omega), Nat.toList_repr]
      rfl
    · rw [denoted, if_neg Bool.false_ne_true, hvalue]
      omega

/-! ## `atoi` inverts printing -/

/-- For the texts that `fits` admits: the decimal text of an `int`, with anything behind it that is
no digit, reads as that `int`, and digits behind an optional minus read as the integer they denote,
modulo `2 ^ 32` and as signed. -/
structure InvertsPrinting (fits : List UInt8 → Prop) : Prop where
  printed : ∀ v, int.Holds v → ∀ suffix : List UInt8, (∀ ch ∈ suffix.head?, isDigit ch = false) →
    fits (decimal v ++ suffix) → atoi (decimal v ++ suffix) = v
  digits : ∀ negative ds, (∀ d ∈ ds, isDigit d = true) → fits (signed negative ds) →
    atoi (signed negative ds) = int.wrap (denoted negative ds)

theorem atoi_inverts : InvertsPrinting fun s => s.length < 2 ^ 31 where
  printed v hv suffix hsuffix hlen := by
    obtain ⟨negative, ds, hdecimal, hne, hds, hdenoted⟩ := decimal_eq v
    rw [hdecimal] at hlen ⊢
    rw [atoi_signed hds hsuffix (.inr (.inl hne)) hlen, hdenoted]
    exact hv
  digits negative ds hds hlen := by
    have happend : signed negative ds ++ [] = signed negative ds := List.append_nil _
    rw [← happend] at hlen ⊢
    exact atoi_signed hds (by simp) (.inr (.inr rfl)) hlen

/-- A text whose `.length` is negative reads as `0`. -/
theorem atoi_of_neg {s : List UInt8} (h : lengthOf s < 0) : atoi s = 0 := by
  have hplain : startsNegative s = false := by
    rw [startsNegative, decide_eq_false (by omega), Bool.false_and]
  rw [atoi, hplain, Int.toNat_of_nonpos (Int.le_of_lt h)]
  rfl

/-- `2 ^ 31 - 1` zeros and a one. -/
theorem not_atoi_inverts : ¬ InvertsPrinting fun _ => True := by
  intro hall
  have hvalue : ∀ n, value (List.replicate n zero ++ [49]) = 1 := by
    intro n
    have hzero : value (List.replicate n zero) = 0 := by
      induction n with
      | zero => rfl
      | succ n ih => rw [List.replicate_succ', value_append, ih]; rfl
    rw [value_append, hzero]
    rfl
  have hdigits : ∀ d ∈ List.replicate (2 ^ 31 - 1) zero ++ [49], isDigit d = true := by
    intro d hd
    rcases List.mem_append.1 hd with hd | hd
    · rw [List.eq_of_mem_replicate hd]
      rfl
    · rw [List.mem_singleton.1 hd]
      rfl
  have hlen : lengthOf (List.replicate (2 ^ 31 - 1) zero ++ [49]) < 0 := by
    rw [lengthOf, List.length_append, List.length_replicate]
    decide
  have hone := hall.digits false _ hdigits trivial
  rw [signed, if_neg Bool.false_ne_true, atoi_of_neg hlen, denoted, if_neg Bool.false_ne_true,
    hvalue] at hone
  exact absurd hone (by decide)

end Parse

end Arche.Stdlib
