import Arche.Lib.Word
import Mathlib.Data.List.Basic
import Mathlib.Tactic.Common

/-!
# The text of integer constants

A number token is read by `arche_int_lit` (lexer.c): decimal, `0x`, `0b` or `0o`, with
`_` between digits. A constant is stored as text; `register_value_const` of semantic.c
writes an integer in decimal first, and compile-time evaluation reads the stored text
with `strtol`, which has a grammar of its own (a leading `0` is octal).

`strtol_registered`: what `strtol` reads of a registered constant is what
`arche_int_lit` reads of its declaration.
-/

namespace Arche.Semantic.ConstEval

open Arche.Lib

/-- `long` and `long long`. -/
def long : Word := ⟨64, true⟩

/-- The value of a digit, up to `f`. -/
def digit (c : Char) : Option Nat :=
  if '0' ≤ c ∧ c ≤ '9' then some (c.toNat - '0'.toNat)
  else if 'a' ≤ c ∧ c ≤ 'f' then some (c.toNat - 'a'.toNat + 10)
  else if 'A' ≤ c ∧ c ≤ 'F' then some (c.toNat - 'A'.toNat + 10)
  else none

/-- A digit of the base. -/
def digitIn (base : Nat) (c : Char) : Option Nat := (digit c).filter (· < base)

/-- The digits of `arche_int_lit`, the value so far in an `unsigned long long`. -/
def litDigits (base : Nat) : List Char → Bool → Nat → Option Nat
  | [], any, v => if any then some v else none
  | '_' :: cs, any, v => litDigits base cs any v
  | c :: cs, _, v => (digitIn base c).bind fun d => litDigits base cs true ((v * base + d) % 2 ^ 64)

/-- A sign in front of what `read` reads. -/
def signed (read : List Char → Option Nat) (pos neg : Int → Int) : List Char → Option Int
  | '-' :: cs => (read cs).map fun v : Nat => neg v
  | '+' :: cs => (read cs).map fun v : Nat => pos v
  | cs => (read cs).map fun v : Nat => pos v

/-- The part of `arche_int_lit` after the sign. -/
def litUnsigned : List Char → Option Nat
  | '0' :: 'x' :: cs => litDigits 16 cs false 0
  | '0' :: 'X' :: cs => litDigits 16 cs false 0
  | '0' :: 'b' :: cs => litDigits 2 cs false 0
  | '0' :: 'B' :: cs => litDigits 2 cs false 0
  | '0' :: 'o' :: cs => litDigits 8 cs false 0
  | '0' :: 'O' :: cs => litDigits 8 cs false 0
  | cs => litDigits 10 cs false 0

/-- `arche_int_lit`. -/
def archeIntLit : List Char → Option Int :=
  signed litUnsigned long.wrap fun v => long.wrap (-long.wrap v)

/-- The digits of `strtol`, all of the text. -/
def strtolDigits (base : Nat) : List Char → Nat → Option Nat
  | [], v => some v
  | c :: cs, v => (digitIn base c).bind fun d => strtolDigits base cs (v * base + d)

/-- The part of `strtol` with base 0 after the sign. The prefix of a text without digits is not read. -/
def strtolUnsigned : List Char → Option Nat
  | [] => none
  | '0' :: 'x' :: c :: cs => strtolDigits 16 (c :: cs) 0
  | '0' :: 'X' :: c :: cs => strtolDigits 16 (c :: cs) 0
  | '0' :: cs => strtolDigits 8 cs 0
  | c :: cs => strtolDigits 10 (c :: cs) 0

/-- Out of range values are those at the ends of the range. -/
def saturate (x : Int) : Int := max (-2 ^ 63) (min x (2 ^ 63 - 1))

/-- `strtol` with base 0 of a text it reads to the end. -/
def strtol : List Char → Option Int := signed strtolUnsigned saturate fun v => saturate (-v)

/-- `%lld`. -/
def decimal (x : Int) : List Char :=
  if x < 0 then '-' :: Nat.toDigits 10 x.natAbs else Nat.toDigits 10 x.natAbs

/-- The first character of a string or of a character literal. -/
def isQuote (c : Char) : Bool := c.toNat == 34 || c.toNat == 39

/-- The text `register_value_const` stores. -/
def registered (lexeme : List Char) : List Char :=
  if lexeme.head?.any isQuote then lexeme
  else if '.' ∈ lexeme then lexeme.filter (· ≠ '_')
  else match archeIntLit lexeme with
    | some v => decimal v
    | none => lexeme

/-! ## Reading back -/

/-- The characters `strtol` reads. -/
def numeral (c : Char) : Bool := (digit c).isSome || c == 'x' || c == 'X' || c == '+' || c == '-'

theorem digitIn_mono {b b' d : Nat} {c : Char} (hb : b ≤ b') (h : digitIn b c = some d) :
    digitIn b' c = some d := by
  simp only [digitIn, Option.filter_eq_some_iff, decide_eq_true_eq] at h ⊢
  exact ⟨h.1, by omega⟩

theorem numeral_of_digitIn {b d : Nat} {c : Char} (h : digitIn b c = some d) : numeral c = true := by
  simp only [digitIn, Option.filter_eq_some_iff] at h
  simp [numeral, h.1]

theorem strtolDigits_digitIn {b v n : Nat} {cs : List Char} (h : strtolDigits b cs v = some n) :
    ∀ c ∈ cs, ∃ d, digitIn b c = some d := by
  induction cs generalizing v with
  | nil => simp
  | cons c cs ih =>
    obtain ⟨d, hd, h⟩ := Option.bind_eq_some_iff.mp h
    intro c' hc'
    rcases List.mem_cons.mp hc' with rfl | hc'
    · exact ⟨d, hd⟩
    · exact ih h c' hc'

/-- What `strtol` reads in a base, `arche_int_lit` reads in that base or a larger one. -/
theorem litDigits_isSome {b b' : Nat} (hb : b ≤ b') {cs : List Char} {any : Bool} {v : Nat}
    (hcs : ∀ c ∈ cs, ∃ d, digitIn b c = some d) (hany : any = true ∨ cs ≠ []) :
    (litDigits b' cs any v).isSome = true := by
  induction cs generalizing any v with
  | nil =>
    rcases hany with rfl | h
    · rfl
    · exact absurd rfl h
  | cons c cs ih =>
    obtain ⟨d, hd⟩ := hcs c List.mem_cons_self
    have hne : c ≠ '_' := by
      rintro rfl
      exact absurd hd (by simp [digitIn, digit])
    have hd' := digitIn_mono hb hd
    unfold litDigits
    simp only [hd', Option.bind_some]
    exact ih (fun c' hc' => hcs c' (List.mem_cons_of_mem c hc')) (.inl rfl)

/-- Decimal digits have none of the prefixes of `arche_int_lit`. -/
theorem litUnsigned_isSome {cs : List Char} (hcs : ∀ c ∈ cs, ∃ d, digitIn 10 c = some d)
    (hne : cs ≠ []) : (litUnsigned cs).isSome = true := by
  have hno (c : Char) (hc : c ∈ cs) : c ∉ ['x', 'X', 'b', 'B', 'o', 'O'] := by
    obtain ⟨d, hd⟩ := hcs c hc
    have hnone : ∀ c ∈ ['x', 'X', 'b', 'B', 'o', 'O'], digitIn 10 c = none := by
      simp [digitIn, digit]
    intro hmem
    rw [hnone c hmem] at hd
    cases hd
  unfold litUnsigned
  split
  · exact absurd (by simp) (hno 'x' (by simp))
  · exact absurd (by simp) (hno 'X' (by simp))
  · exact absurd (by simp) (hno 'b' (by simp))
  · exact absurd (by simp) (hno 'B' (by simp))
  · exact absurd (by simp) (hno 'o' (by simp))
  · exact absurd (by simp) (hno 'O' (by simp))
  · exact litDigits_isSome (Nat.le_refl 10) hcs (.inr hne)

/-- After the sign, what `strtol` reads has only numerals, and `arche_int_lit` reads it too. -/
theorem strtolUnsigned_spec {cs : List Char} {n : Nat} (h : strtolUnsigned cs = some n) :
    (litUnsigned cs).isSome = true ∧ ∀ c ∈ cs, numeral c = true := by
  have hhex {b : Nat} {x : Char} (hx : numeral x = true) {rest : List Char}
      (hd : ∀ c ∈ rest, ∃ d, digitIn b c = some d) : ∀ c ∈ '0' :: x :: rest, numeral c = true := by
    intro c hc
    rcases List.mem_cons.mp hc with rfl | hc
    · decide
    rcases List.mem_cons.mp hc with rfl | hc
    · exact hx
    obtain ⟨d, hd⟩ := hd c hc
    exact numeral_of_digitIn hd
  have hdec {b : Nat} (hb : b ≤ 10) (hd : ∀ c ∈ cs, ∃ d, digitIn b c = some d) (hne : cs ≠ []) :
      (litUnsigned cs).isSome = true ∧ ∀ c ∈ cs, numeral c = true := by
    refine ⟨litUnsigned_isSome (fun c hc => ?_) hne, fun c hc => ?_⟩
    · obtain ⟨d, hd⟩ := hd c hc
      exact ⟨d, digitIn_mono hb hd⟩
    · obtain ⟨d, hd⟩ := hd c hc
      exact numeral_of_digitIn hd
  unfold strtolUnsigned at h
  split at h
  · cases h
  · have hd := strtolDigits_digitIn h
    exact ⟨litDigits_isSome (Nat.le_refl 16) hd (.inr (by simp)), hhex (by decide) hd⟩
  · have hd := strtolDigits_digitIn h
    exact ⟨litDigits_isSome (Nat.le_refl 16) hd (.inr (by simp)), hhex (by decide) hd⟩
  · have hd := strtolDigits_digitIn h
    refine hdec (by omega : 8 ≤ 10) (fun c hc => ?_) (by simp)
    rcases List.mem_cons.mp hc with rfl | hc
    · exact ⟨0, by decide⟩
    · exact hd c hc
  · exact hdec (Nat.le_refl 10) (strtolDigits_digitIn h) (by simp)

theorem strtol_spec {cs : List Char} {x : Int} (h : strtol cs = some x) :
    (archeIntLit cs).isSome = true ∧ ∀ c ∈ cs, numeral c = true := by
  have hsign {s : Char} (hs : numeral s = true) {cs : List Char} (hcs : ∀ c ∈ cs, numeral c = true) :
      ∀ c ∈ s :: cs, numeral c = true := by
    intro c hc
    rcases List.mem_cons.mp hc with rfl | hc
    · exact hs
    · exact hcs c hc
  unfold strtol signed at h
  unfold archeIntLit signed
  split at h
  · obtain ⟨n, hn, -⟩ := Option.map_eq_some_iff.mp h
    obtain ⟨hlit, hcs⟩ := strtolUnsigned_spec hn
    exact ⟨by rw [Option.isSome_map]; exact hlit, hsign (by decide) hcs⟩
  · obtain ⟨n, hn, -⟩ := Option.map_eq_some_iff.mp h
    obtain ⟨hlit, hcs⟩ := strtolUnsigned_spec hn
    exact ⟨by rw [Option.isSome_map]; exact hlit, hsign (by decide) hcs⟩
  · obtain ⟨n, hn, -⟩ := Option.map_eq_some_iff.mp h
    obtain ⟨hlit, hcs⟩ := strtolUnsigned_spec hn
    exact ⟨by rw [Option.isSome_map]; exact hlit, hcs⟩

theorem archeIntLit_holds {cs : List Char} {x : Int} (h : archeIntLit cs = some x) : long.Holds x := by
  unfold archeIntLit signed at h
  split at h <;> obtain ⟨n, -, rfl⟩ := Option.map_eq_some_iff.mp h <;> exact long.holds_wrap _

/-! ### `strtol` of a decimal text -/

theorem strtolDigits_ten {cs : List Char} (hcs : ∀ c ∈ cs, c.isDigit = true) (v : Nat) :
    strtolDigits 10 cs v = some (Nat.ofDigitChars 10 cs v) := by
  induction cs generalizing v with
  | nil => simp [strtolDigits]
  | cons c cs ih =>
    have hdigit := hcs c List.mem_cons_self
    simp only [Char.isDigit, Bool.and_eq_true, decide_eq_true_eq] at hdigit
    have hc : '0' ≤ c ∧ c ≤ '9' := hdigit
    have hlt : c.toNat - '0'.toNat < 10 := by
      have := UInt32.le_iff_toNat_le.mp hdigit.2
      have h9 : c.toNat ≤ 57 := this
      have h0 : '0'.toNat = 48 := rfl
      omega
    have hd : digitIn 10 c = some (c.toNat - '0'.toNat) := by
      rw [digitIn, digit, if_pos hc, Option.filter_some, if_pos (decide_eq_true hlt)]
    rw [strtolDigits, hd, Option.bind_some, ih fun c hc => hcs c (List.mem_cons_of_mem _ hc),
      Nat.ofDigitChars_cons, Nat.mul_comm]

/-- A decimal text starts with `0` only if it is `0`. -/
theorem toDigits_head {n : Nat} (hn : 0 < n) : ∃ c cs, Nat.toDigits 10 n = c :: cs ∧ c ≠ '0' := by
  induction n using Nat.strongRecOn with
  | ind n ih =>
    by_cases hlt : n < 10
    · have hchar : ∀ m < 10, 0 < m → m.digitChar ≠ '0' := by decide
      exact ⟨n.digitChar, [], Nat.toDigits_of_lt_base hlt, hchar n hlt hn⟩
    · obtain ⟨c, cs, hcs, hc⟩ := ih (n / 10) (by omega) (by omega)
      refine ⟨c, cs ++ [(n % 10).digitChar], ?_, hc⟩
      rw [Nat.toDigits_of_base_le (by omega) (by omega), hcs]
      rfl

theorem strtolUnsigned_toDigits (n : Nat) : strtolUnsigned (Nat.toDigits 10 n) = some n := by
  rcases Nat.eq_zero_or_pos n with rfl | hn
  · rfl
  · obtain ⟨c, cs, hcs, hc⟩ := toDigits_head hn
    have hdigit : ∀ c ∈ Nat.toDigits 10 n, c.isDigit = true :=
      fun c hc => Nat.isDigit_of_mem_toDigits (by omega) (by omega) hc
    have hread := strtolDigits_ten hdigit 0
    rw [Nat.ofDigitChars_ten_toDigits, hcs] at hread
    rw [hcs]
    unfold strtolUnsigned
    split
    · next heq => cases heq
    · next heq => exact absurd (List.cons.inj heq).1 hc
    · next heq => exact absurd (List.cons.inj heq).1 hc
    · next heq => exact absurd (List.cons.inj heq).1 hc
    · next heq =>
      rw [← heq]
      exact hread

theorem long_holds_iff {x : Int} : long.Holds x ↔ -2 ^ 63 ≤ x ∧ x < 2 ^ 63 := by
  simp only [Word.Holds, Word.wrap, long, if_true]
  constructor
  · intro h
    have hlo := Int.le_bmod (x := x) (m := 2 ^ 64) (by decide)
    have hhi := Int.bmod_lt (x := x) (m := 2 ^ 64) (by decide)
    omega
  · rintro ⟨hlo, hhi⟩
    exact Int.bmod_eq_of_le_mul_two (by omega) (by omega)

theorem strtol_decimal {x : Int} (hx : long.Holds x) : strtol (decimal x) = some x := by
  obtain ⟨hlo, hhi⟩ := long_holds_iff.mp hx
  have hread := strtolUnsigned_toDigits x.natAbs
  unfold decimal
  split
  · simp only [strtol, signed, hread, Option.map_some, Option.some.injEq, saturate]
    omega
  · obtain ⟨c, cs, hcs⟩ := List.exists_cons_of_ne_nil (Nat.toDigits_ne_nil (n := x.natAbs) (b := 10))
    have hdigit : c.isDigit = true := Nat.isDigit_of_mem_toDigits (by omega) (by omega) (hcs ▸ List.mem_cons_self)
    rw [hcs] at hread ⊢
    have hsign : strtol (c :: cs) = (strtolUnsigned (c :: cs)).map fun v : Nat => saturate v := by
      unfold strtol signed
      split
      · next heq =>
        rw [(List.cons.inj heq).1] at hdigit
        exact absurd hdigit (by decide)
      · next heq =>
        rw [(List.cons.inj heq).1] at hdigit
        exact absurd hdigit (by decide)
      · rfl
    rw [hsign, hread, Option.map_some, Option.some.injEq, saturate]
    omega

theorem numeral_of_isQuote {c : Char} (h : isQuote c = true) : numeral c = false := by
  simp only [isQuote, Bool.or_eq_true, beq_iff_eq] at h
  rcases h with h | h
  · rw [← Char.ofNat_toNat c, h]
    decide
  · rw [← Char.ofNat_toNat c, h]
    decide

/-- A constant read back from its stored text is the constant as declared. -/
theorem strtol_registered {lexeme : List Char} {x : Int} (h : strtol (registered lexeme) = some x) :
    archeIntLit lexeme = some x := by
  unfold registered at h
  split at h
  · next hquote =>
    cases lexeme with
    | nil => cases hquote
    | cons c cs =>
      have hnum := (strtol_spec h).2 c List.mem_cons_self
      rw [numeral_of_isQuote (by simpa using hquote)] at hnum
      cases hnum
  split at h
  · next hdot =>
    have hmem : '.' ∈ lexeme.filter (· ≠ '_') := List.mem_filter.mpr ⟨hdot, by decide⟩
    exact absurd ((strtol_spec h).2 '.' hmem) (by decide)
  · cases hlit : archeIntLit lexeme with
    | some v =>
      rw [hlit] at h
      rw [← h, strtol_decimal (archeIntLit_holds hlit)]
    | none =>
      rw [hlit] at h
      have := (strtol_spec h).1
      simp [hlit] at this

end Arche.Semantic.ConstEval
