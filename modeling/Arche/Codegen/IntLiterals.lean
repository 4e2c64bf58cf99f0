import Arche.Semantic.ConstText
import Arche.Syntax.Lexer
import Mathlib.Data.Int.ModEq
import Mathlib.Data.List.TakeWhile

/-!
# The readers of an integer literal

The text of an integer NUMBER token is decoded three times: by `arche_int_lit` for the
checks and the LLVM backend, by `wg_parse_int` for the wasm backend, and by the GLSL
compiler, which gets the text as it was written.

`decoders_agree`: the exact literals on which the three agree modulo `2 ^ 32`.
-/

namespace Arche.Codegen.IntLiterals

open Arche.Lib Arche.Syntax Arche.Semantic.ConstEval

/-! ## The decoders -/

/-- `lit_is_float` of tycheck.c. -/
def litIsFloat (lex : List Char) : Bool :=
  if lex.head?.any isQuote then false
  else if (archeIntLit lex).isSome then false
  else '.' ∈ lex ∨ 'e' ∈ lex ∨ 'E' ∈ lex

/-- The number the digits of a text stand for. -/
def value (base : Nat) (cs : List Char) : Nat :=
  cs.foldl (fun v c => v * base + (digit c).getD 0) 0

/-- `strtol` with a fixed base: the longest run of digits, nothing read as `0`. The white
space and signs it skips do not occur in a number token. -/
def strtolIn (base : Nat) (cs : List Char) : Int :=
  saturate (value base (cs.takeWhile fun c => (digitIn base c).isSome))

/-- The part of `wg_parse_int` after the sign. -/
def wgUnsigned : List Char → Int
  | '0' :: 'b' :: cs => strtolIn 2 cs
  | '0' :: 'B' :: cs => strtolIn 2 cs
  | '0' :: 'o' :: cs => strtolIn 8 cs
  | '0' :: 'O' :: cs => strtolIn 8 cs
  | '0' :: 'x' :: cs => strtolIn 16 cs
  | '0' :: 'X' :: cs => strtolIn 16 cs
  | cs => strtolIn 10 cs

def int32 : Word := ⟨32, true⟩

/-- `wg_parse_int`: a buffer of 79 characters, the separators left out. -/
def wgParseInt (s : List Char) : Int :=
  match (s.filter (· != '_')).take 79 with
  | '-' :: cs => int32.wrap (-wgUnsigned cs)
  | '+' :: cs => int32.wrap (wgUnsigned cs)
  | cs => int32.wrap (wgUnsigned cs)

/-- `gb_putf` formats into 1024 bytes and copies the length of the whole text: from that
length on what it appends is not the text. -/
def gbPutf (text : List Char) : Option (List Char) := if text.length < 1024 then some text else none

/-- `emit_scalar_lexeme`. -/
def emitScalarLexeme (isFloat : Bool) (lx : List Char) : Option (List Char) :=
  let frac : Bool := '.' ∈ lx ∨ 'e' ∈ lx ∨ 'E' ∈ lx
  if isFloat then
    (gbPutf lx).map fun text => if frac then text else text ++ ['.', '0']
  else if frac then none
  else gbPutf lx

/-- An integer constant of GLSL has the grammar of `strtol` with base 0 (a leading `0` is
octal) and is an error if it does not fit 32 bits. -/
def glslInt (text : List Char) : Option Nat := (strtolUnsigned text).filter (· < 2 ^ 32)

/-- The three decoders take the text for an integer, the same modulo `2 ^ 32`. -/
def Agree (s : List Char) : Prop :=
  ∃ (v : Int) (g : Nat), archeIntLit s = some v ∧ litIsFloat s = false ∧
    wgParseInt s ≡ v [ZMOD 2 ^ 32] ∧
    (emitScalarLexeme false s).bind glslInt = some g ∧ (g : Int) ≡ v [ZMOD 2 ^ 32]

/-! ## The exact literals -/

/-- The base of a base character. -/
def marker (n : Char) : Option Nat :=
  if n = 'x' ∨ n = 'X' then some 16
  else if n = 'b' ∨ n = 'B' then some 2
  else if n = 'o' ∨ n = 'O' then some 8
  else none

/-- The base of a text and what follows its base character. -/
def radix : List Char → Nat × List Char
  | '0' :: n :: cs => ((marker n).map fun b => (b, cs)).getD (10, '0' :: n :: cs)
  | cs => (10, cs)

/-- The number a text denotes. -/
def denoted (s : List Char) : Nat := value (radix s).1 (radix s).2

/-- Decimal or hexadecimal without separators, in 32 bits, and neither octal to GLSL nor cut
by a buffer. -/
structure Plain (s : List Char) : Prop where
  base : (radix s).1 = 10 ∨ (radix s).1 = 16
  digits : (radix s).2 ≠ []
  separator : '_' ∉ s
  exponent : 'e' ∉ s ∧ 'E' ∉ s
  fits : denoted s < 2 ^ 32
  octal : (radix s).1 = 10 → s.head? = some '0' → denoted s ≤ 7
  short : s.length ≤ 79 ∨ denoted s = 0 ∧ s.length < 1024

/-- The text of a number token without a fraction. -/
inductive IntLexeme : List Char → Prop
  | based {n : Char} {b : Nat} {cs : List Char} : marker n = some b →
      (∀ c ∈ cs, isBaseDigit n c = true) → IntLexeme ('0' :: n :: cs)
  | decimal {c : Char} {cs : List Char} : c.isDigit = true →
      (∀ c ∈ cs, isDigitOrSep c = true) → IntLexeme (c :: cs)

theorem radix_of_no_marker {s : List Char}
    (h : ∀ n ∈ ['x', 'X', 'b', 'B', 'o', 'O'], ∀ cs, s ≠ '0' :: n :: cs) : radix s = (10, s) := by
  fun_cases radix s with
  | case1 n cs =>
    have hn : n ∉ ['x', 'X', 'b', 'B', 'o', 'O'] := fun hn => h n hn cs rfl
    have hnone : marker n = none := by
      simp only [List.mem_cons, List.not_mem_nil, or_false, not_or] at hn
      simp [marker, hn]
    rw [hnone]
    rfl
  | case2 => rfl

theorem litUnsigned_radix (s : List Char) :
    litUnsigned s = litDigits (radix s).1 (radix s).2 false 0 := by
  fun_cases litUnsigned s with
  | case7 s hx hX hb hB ho hO =>
    rw [radix_of_no_marker]
    simp only [List.forall_mem_cons]
    exact ⟨hx, hX, hb, hB, ho, hO, nofun⟩
  | _ => rfl

theorem wgUnsigned_radix (s : List Char) : wgUnsigned s = strtolIn (radix s).1 (radix s).2 := by
  fun_cases wgUnsigned s with
  | case7 s hb hB ho hO hx hX =>
    rw [radix_of_no_marker]
    simp only [List.forall_mem_cons]
    exact ⟨hx, hX, hb, hB, ho, hO, nofun⟩
  | _ => rfl

/-! ### Digits -/

section Digits

variable {b : Nat} {cs ds : List Char}

/-- All characters are digits of the base. -/
def Digits (b : Nat) (cs : List Char) : Prop := ∀ c ∈ cs, (digitIn b c).isSome = true

theorem digit_of_digitIn {c : Char} (h : (digitIn b c).isSome = true) :
    ∃ d < b, digit c = some d ∧ digitIn b c = some d := by
  obtain ⟨d, hd⟩ := Option.isSome_iff_exists.mp h
  have hd' := hd
  simp only [digitIn, Option.filter_eq_some_iff, decide_eq_true_eq] at hd'
  exact ⟨d, hd'.2, hd'.1, hd⟩

theorem foldl_value (b : Nat) (cs : List Char) (v : Nat) :
    cs.foldl (fun v c => v * b + (digit c).getD 0) v = v * b ^ cs.length + value b cs := by
  induction cs generalizing v with
  | nil => simp [value]
  | cons c cs ih =>
    have hcons : value b (c :: cs) = (digit c).getD 0 * b ^ cs.length + value b cs := by
      rw [value, List.foldl_cons, ih, Nat.zero_mul, Nat.zero_add]
    rw [List.foldl_cons, ih, hcons, List.length_cons, Nat.pow_succ, Nat.add_mul, Nat.mul_assoc,
      Nat.mul_comm b, Nat.add_assoc]

theorem value_append (b : Nat) (cs ds : List Char) :
    value b (cs ++ ds) = value b cs * b ^ ds.length + value b ds := by
  rw [value, List.foldl_append, foldl_value]
  rfl

theorem value_cons (b : Nat) (c : Char) (cs : List Char) :
    value b (c :: cs) = (digit c).getD 0 * b ^ cs.length + value b cs := by
  rw [value, List.foldl_cons, foldl_value]
  simp

theorem value_lt (h : Digits b cs) : value b cs < b ^ cs.length := by
  induction cs with
  | nil => simp [value]
  | cons c cs ih =>
    obtain ⟨d, hlt, hd, -⟩ := digit_of_digitIn (h c List.mem_cons_self)
    have htail := ih fun c hc => h c (List.mem_cons_of_mem _ hc)
    calc value b (c :: cs) = d * b ^ cs.length + value b cs := by rw [value_cons, hd]; rfl
      _ < d * b ^ cs.length + b ^ cs.length := by omega
      _ = (d + 1) * b ^ cs.length := (Nat.succ_mul _ _).symm
      _ ≤ b * b ^ cs.length := Nat.mul_le_mul_right _ hlt
      _ = b ^ (c :: cs).length := by rw [List.length_cons, Nat.pow_succ, Nat.mul_comm]

/-- Cutting a text divides its value. -/
theorem value_take (h : Digits b cs) (k : Nat) :
    value b (cs.take k) = value b cs / b ^ (cs.length - k) := by
  have hsplit := value_append b (cs.take k) (cs.drop k)
  have hlt : value b (cs.drop k) < b ^ (cs.length - k) := by
    have hdrop : Digits b (cs.drop k) := fun c hc => h c (List.mem_of_mem_drop hc)
    have := value_lt hdrop
    rwa [List.length_drop] at this
  rw [List.take_append_drop, List.length_drop] at hsplit
  rw [hsplit, Nat.add_comm, Nat.add_mul_div_right _ _ (by omega), Nat.div_eq_of_lt hlt, Nat.zero_add]

theorem strtolDigits_value (h : Digits b cs) (v : Nat) :
    strtolDigits b cs v = some (v * b ^ cs.length + value b cs) := by
  induction cs generalizing v with
  | nil => simp [strtolDigits, value]
  | cons c cs ih =>
    obtain ⟨d, -, hd, hin⟩ := digit_of_digitIn (h c List.mem_cons_self)
    rw [strtolDigits, hin, Option.bind_some, ih fun c hc => h c (List.mem_cons_of_mem _ hc),
      value_cons, hd, List.length_cons, Nat.pow_succ, Nat.add_mul, Nat.mul_assoc, Nat.mul_comm b,
      Nat.add_assoc, Option.getD_some]

/-- `strtol` reads a text to the end exactly if it has only digits. -/
theorem strtolDigits_eq_some {n : Nat} :
    strtolDigits b cs 0 = some n ↔ Digits b cs ∧ n = value b cs := by
  constructor
  · intro h
    have hd : Digits b cs := by
      intro c hc
      obtain ⟨d, hd⟩ := strtolDigits_digitIn h c hc
      rw [hd]
      rfl
    rw [strtolDigits_value hd, Nat.zero_mul, Nat.zero_add] at h
    exact ⟨hd, (Option.some.inj h).symm⟩
  · rintro ⟨hd, rfl⟩
    rw [strtolDigits_value hd, Nat.zero_mul, Nat.zero_add]

theorem strtolIn_eq (h : Digits b cs) : strtolIn b cs = saturate (value b cs) := by
  rw [strtolIn, List.takeWhile_eq_self_iff.mpr h]

theorem litDigits_value (h : ∀ c ∈ cs, c = '_' ∨ (digitIn b c).isSome = true) (any : Bool) (v : Nat) :
    ∃ w, litDigits b cs any v = (if any ∨ cs.filter (· != '_') ≠ [] then some w else none) ∧
      w ≡ v * b ^ (cs.filter (· != '_')).length + value b (cs.filter (· != '_')) [MOD 2 ^ 64] := by
  induction cs generalizing any v with
  | nil => exact ⟨v, by cases any <;> rfl, by simp [value, Nat.ModEq]⟩
  | cons c cs ih =>
    have htail : ∀ c ∈ cs, c = '_' ∨ (digitIn b c).isSome = true :=
      fun c hc => h c (List.mem_cons_of_mem _ hc)
    by_cases hc : c = '_'
    · subst hc
      obtain ⟨w, hw, hmod⟩ := ih htail any v
      exact ⟨w, by simpa [litDigits] using hw, by simpa using hmod⟩
    · obtain ⟨d, -, hd, hin⟩ := digit_of_digitIn ((h c List.mem_cons_self).resolve_left hc)
      obtain ⟨w, hw, hmod⟩ := ih htail true ((v * b + d) % 2 ^ 64)
      refine ⟨w, ?_, ?_⟩
      · unfold litDigits
        simpa [hin, hc] using hw
      · have hfilter : (c :: cs).filter (· != '_') = c :: cs.filter (· != '_') := by simp [hc]
        rw [hfilter, value_cons, hd, Option.getD_some, List.length_cons, Nat.pow_succ]
        have hstep : (v * b + d) % 2 ^ 64 * b ^ (cs.filter (· != '_')).length ≡
            (v * b + d) * b ^ (cs.filter (· != '_')).length [MOD 2 ^ 64] :=
          (Nat.mod_modEq _ _).mul_right _
        have hsum := hmod.trans (hstep.add_right _)
        rwa [Nat.add_mul, Nat.mul_assoc, Nat.mul_comm b, Nat.add_assoc] at hsum

end Digits

/-! ### A leading zero -/

section Octal

variable {cs : List Char}

/-- By how much the decimal reading of a text exceeds its octal one. -/
def excess : List Char → Nat
  | [] => 0
  | c :: cs => (digit c).getD 0 * (10 ^ cs.length - 8 ^ cs.length) + excess cs

/-- `n` octal digits may have the excess `t`. -/
def attains : Nat → Nat → Bool
  | 0, t => t == 0
  | n + 1, t =>
    decide (t < 8 * 10 ^ n) && (List.range 8).any fun d =>
      decide (d * (10 ^ n - 8 ^ n) ≤ t) && attains n (t - d * (10 ^ n - 8 ^ n))

theorem Digits.mono {b b' : Nat} (hb : b ≤ b') (h : Digits b cs) : Digits b' cs := by
  intro c hc
  obtain ⟨d, hlt, hd, hin⟩ := digit_of_digitIn (h c hc)
  rw [digitIn_mono hb hin]
  rfl

theorem value_eq_add_excess (cs : List Char) : value 10 cs = value 8 cs + excess cs := by
  induction cs with
  | nil => rfl
  | cons c cs ih =>
    have hpow : 8 ^ cs.length ≤ 10 ^ cs.length := Nat.pow_le_pow_left (by omega) _
    obtain ⟨k, hk⟩ := Nat.exists_eq_add_of_le hpow
    rw [value_cons, value_cons, excess, ih, hk, Nat.add_sub_cancel_left, Nat.mul_add]
    omega

theorem attains_excess (h : Digits 8 cs) : attains cs.length (excess cs) = true := by
  induction cs with
  | nil => rfl
  | cons c cs ih =>
    obtain ⟨d, hlt, hd, -⟩ := digit_of_digitIn (h c List.mem_cons_self)
    have htail : Digits 8 cs := fun c hc => h c (List.mem_cons_of_mem _ hc)
    have hval := value_lt (htail.mono (by omega : 8 ≤ 10))
    have hexcess := value_eq_add_excess (c :: cs)
    rw [value_cons, hd, Option.getD_some] at hexcess
    have hhead : d * 10 ^ cs.length ≤ 7 * 10 ^ cs.length := Nat.mul_le_mul_right _ (by omega)
    simp only [List.length_cons, attains, Bool.and_eq_true, decide_eq_true_eq, List.any_eq_true,
      List.mem_range]
    refine ⟨by omega, d, hlt, ?_⟩
    simp only [excess, hd, Option.getD_some, Nat.add_sub_cancel_left]
    exact ⟨Nat.le_add_right _ _, ih htail⟩

/-- No excess of at most eleven octal digits is one of the first multiples of `2 ^ 32` but zero. -/
theorem attains_multiple : ∀ n < 12, ∀ k < 9, attains n (k * 2 ^ 32) = true → k = 0 := by
  decide +kernel

theorem excess_lt {c : Char} (h : Digits 8 (c :: cs)) (hfits : value 8 (c :: cs) < 2 ^ 32)
    (hlen : cs.length ≤ 10) : excess (c :: cs) < 9 * 2 ^ 32 := by
  obtain ⟨d, -, hd, -⟩ := digit_of_digitIn (h c List.mem_cons_self)
  have hval := value_lt (h.mono (by omega : 8 ≤ 10))
  have hdigits : Digits 10 cs :=
    fun c hc => h.mono (by omega : 8 ≤ 10) c (List.mem_cons_of_mem _ hc)
  have htail := value_lt hdigits
  have hadd := value_eq_add_excess (c :: cs)
  have hadd' := value_eq_add_excess cs
  rcases Nat.lt_or_eq_of_le hlen with hlt | heq
  · have hpow : 10 ^ (c :: cs).length ≤ 10 ^ 10 :=
      Nat.pow_le_pow_right (by omega) (by rw [List.length_cons]; omega)
    omega
  · -- The first of eleven digits is at most `3`.
    rw [value_cons, hd, Option.getD_some, heq] at hfits
    have hweight : 10 ^ 10 - 8 ^ 10 = 8926258176 := by decide
    have hd3 : d ≤ 3 := by
      clear hval htail hadd hadd'
      omega
    rw [excess, hd, Option.getD_some, heq, hweight]
    rw [heq] at htail
    clear hval hadd hfits
    omega

theorem excess_eq_zero (h : Digits 8 cs) (hfits : value 8 cs < 2 ^ 32) (hmod : 2 ^ 32 ∣ excess cs) :
    excess cs = 0 := by
  induction cs with
  | nil => rfl
  | cons c cs ih =>
    obtain ⟨d, -, hd, -⟩ := digit_of_digitIn (h c List.mem_cons_self)
    have htail : Digits 8 cs := fun c hc => h c (List.mem_cons_of_mem _ hc)
    by_cases hlen : cs.length < 11
    · obtain ⟨k, hk⟩ := hmod
      have hsmall : excess (c :: cs) < 9 * 2 ^ 32 := excess_lt h hfits (by omega)
      have hattains := attains_excess h
      rw [hk, Nat.mul_comm] at hattains
      rw [hk, attains_multiple _ (by rw [List.length_cons]; omega) k (by omega) hattains,
        Nat.mul_zero]
    · -- A twelfth digit is a zero: the value is below `8 ^ 11`.
      have hpow : 8 ^ 11 ≤ 8 ^ cs.length := Nat.pow_le_pow_right (by omega) (by omega)
      rw [value_cons, hd, Option.getD_some] at hfits
      have hd0 : d = 0 := by
        by_contra hne
        have := Nat.le_mul_of_pos_left (8 ^ cs.length) (Nat.pos_of_ne_zero hne)
        omega
      subst hd0
      simp only [excess, hd, Option.getD_some, Nat.zero_mul, Nat.zero_add] at hmod hfits ⊢
      exact ih htail hfits hmod

theorem value_le_seven_of_excess (h : Digits 8 cs) (h0 : excess cs = 0) : value 10 cs ≤ 7 := by
  induction cs with
  | nil => exact Nat.zero_le _
  | cons c cs ih =>
    obtain ⟨d, hlt, hd, -⟩ := digit_of_digitIn (h c List.mem_cons_self)
    simp only [excess, hd, Option.getD_some, Nat.add_eq_zero_iff] at h0
    rw [value_cons, hd, Option.getD_some]
    cases cs with
    | nil =>
      simp only [List.length_nil, value, List.foldl_nil]
      omega
    | cons c' cs =>
      have hpow : 8 ^ (c' :: cs).length < 10 ^ (c' :: cs).length :=
        Nat.pow_lt_pow_left (by omega) (by simp)
      have hd0 : d = 0 := by
        rcases Nat.mul_eq_zero.mp h0.1 with h | h
        · exact h
        · omega
      rw [hd0, Nat.zero_mul, Nat.zero_add]
      exact ih (fun c hc => h c (List.mem_cons_of_mem _ hc)) h0.2

theorem octal_of_value_le_seven (h : Digits 10 cs) (hv : value 10 cs ≤ 7) :
    Digits 8 cs ∧ value 8 cs = value 10 cs := by
  induction cs with
  | nil => exact ⟨nofun, rfl⟩
  | cons c cs ih =>
    obtain ⟨d, -, hd, -⟩ := digit_of_digitIn (h c List.mem_cons_self)
    rw [value_cons, hd, Option.getD_some] at hv
    have hpow : 1 ≤ 10 ^ cs.length := Nat.one_le_pow _ _ (by omega)
    have hle : d ≤ d * 10 ^ cs.length := Nat.le_mul_of_pos_right _ hpow
    obtain ⟨hds, heq⟩ := ih (fun c hc => h c (List.mem_cons_of_mem _ hc)) (by omega)
    refine ⟨?_, ?_⟩
    · intro c' hc'
      rcases List.mem_cons.mp hc' with rfl | hc'
      · simp only [digitIn, hd, Option.filter_some]
        rw [if_pos (decide_eq_true (by omega))]
        rfl
      · exact hds c' hc'
    · rw [value_cons, value_cons, heq, hd, Option.getD_some]
      cases cs with
      | nil => rfl
      | cons c' cs =>
        have hten : 10 ≤ 10 ^ (c' :: cs).length :=
          Nat.le_self_pow (by simp) 10
        have hd0 : d = 0 := by
          by_contra hne
          have := Nat.le_mul_of_pos_left (10 ^ (c' :: cs).length) (Nat.pos_of_ne_zero hne)
          omega
        rw [hd0, Nat.zero_mul, Nat.zero_mul]

/-- The octal and the decimal reading of a text are the same only for one digit after zeros. -/
theorem octal_reading (h : Digits 10 cs) :
    (Digits 8 cs ∧ value 8 cs < 2 ^ 32 ∧ value 8 cs ≡ value 10 cs [MOD 2 ^ 32]) ↔
      value 10 cs ≤ 7 := by
  constructor
  · rintro ⟨hoct, hfits, hmod⟩
    have hdvd : 2 ^ 32 ∣ excess cs := by
      have := (Nat.modEq_iff_dvd' (by rw [value_eq_add_excess]; omega)).mp hmod
      rwa [value_eq_add_excess, Nat.add_sub_cancel_left] at this
    exact value_le_seven_of_excess hoct (excess_eq_zero hoct hfits hdvd)
  · intro hv
    obtain ⟨hoct, heq⟩ := octal_of_value_le_seven h hv
    exact ⟨hoct, by omega, by rw [heq]⟩

end Octal

/-! ### The decoders on a lexeme -/

section Lexeme

variable {s mark cs : List Char} {b : Nat}

/-- A lexeme is a base character or nothing, then digits of the base and separators. -/
structure Parts (s mark : List Char) (b : Nat) (cs : List Char) : Prop where
  text : s = mark ++ cs
  radix_eq : radix s = (b, cs)
  digits : ∀ c ∈ cs, c = '_' ∨ (digitIn b c).isSome = true
  kind : (mark = [] ∧ b = 10 ∧ ∃ c cs', cs = c :: cs' ∧ c.isDigit = true) ∨
    ∃ n, mark = ['0', n] ∧ marker n = some b

theorem digitIn_isSome_of_isDigit {c : Char} (h : c.isDigit = true) : (digitIn 10 c).isSome = true := by
  have hone : ∀ c' ∈ [c], c'.isDigit = true := by simpa using h
  have hread := strtolDigits_ten hone 0
  obtain ⟨d, hd⟩ := strtolDigits_digitIn hread c (List.mem_singleton.mpr rfl)
  rw [hd]
  rfl

theorem isBaseDigit_ascii {n c : Char} (h : isBaseDigit n c = true) : c.toNat < 128 := by
  have hle {x : Char} (hx : x.toNat < 128) (hcx : c ≤ x) : c.toNat < 128 :=
    Nat.lt_of_le_of_lt (UInt32.le_iff_toNat_le.mp hcx) hx
  have heq {x : Char} (hx : x.toNat < 128) (hcx : c = x) : c.toNat < 128 := hcx ▸ hx
  have hdigit (h : c.isDigit = true) : c.toNat < 128 := by
    simp only [Char.isDigit, Bool.and_eq_true, decide_eq_true_eq] at h
    exact hle (x := '9') (by decide) h.2
  simp only [isBaseDigit, isHexDigit, Bool.or_eq_true, beq_iff_eq] at h
  rcases h with h | h
  · split at h
    · simp only [Bool.or_eq_true, Bool.and_eq_true, decide_eq_true_eq] at h
      rcases h with (h | h) | h
      · exact hdigit h
      · exact hle (x := 'f') (by decide) h.2
      · exact hle (x := 'F') (by decide) h.2
    split at h
    · simp only [Bool.or_eq_true, beq_iff_eq] at h
      rcases h with h | h
      · exact heq (x := '0') (by decide) h
      · exact heq (x := '1') (by decide) h
    · simp only [Bool.and_eq_true, decide_eq_true_eq] at h
      exact hle (x := '7') (by decide) h.2
  · exact heq (x := '_') (by decide) h

theorem mem_markers {n : Char} (h : marker n = some b) : n ∈ ['x', 'X', 'b', 'B', 'o', 'O'] := by
  unfold marker at h
  grind

theorem digitIn_of_isBaseDigit {n c : Char} (hb : marker n = some b) (h : isBaseDigit n c = true) :
    c = '_' ∨ (digitIn b c).isSome = true := by
  have hascii : ∀ k < 128, (['x', 'X', 'b', 'B', 'o', 'O'].all fun n =>
      !isBaseDigit n (Char.ofNat k) || Char.ofNat k == '_' ||
        (digitIn ((marker n).getD 10) (Char.ofNat k)).isSome) = true := by
    decide +kernel
  have hc := List.all_eq_true.mp (hascii c.toNat (isBaseDigit_ascii h)) n (mem_markers hb)
  rw [Char.ofNat_toNat, hb, h] at hc
  simpa using hc

theorem digitIn_of_isDigitOrSep {c : Char} (h : isDigitOrSep c = true) :
    c = '_' ∨ (digitIn 10 c).isSome = true := by
  simp only [isDigitOrSep, Bool.or_eq_true, beq_iff_eq] at h
  rcases h with h | h
  · exact .inr (digitIn_isSome_of_isDigit h)
  · exact .inl h

/-- No base character is a decimal digit or a separator. -/
theorem marker_eq_none {n : Char} (h : n = '_' ∨ (digitIn 10 n).isSome = true) : marker n = none := by
  cases hn : marker n with
  | none => rfl
  | some b =>
    have hmarkers : (['x', 'X', 'b', 'B', 'o', 'O'].all fun n =>
        n != '_' && (digitIn 10 n).isNone) = true := by decide
    have hn' := List.all_eq_true.mp hmarkers n (mem_markers hn)
    simp only [Bool.and_eq_true, bne_iff_ne, Option.isNone_iff_eq_none] at hn'
    simp [hn'] at h

theorem radix_of_digits (h : ∀ c ∈ cs, c = '_' ∨ (digitIn 10 c).isSome = true) :
    radix cs = (10, cs) := by
  fun_cases radix cs with
  | case1 n cs =>
    rw [marker_eq_none (h n (by simp))]
    rfl
  | case2 => rfl

theorem IntLexeme.parts (h : IntLexeme s) : ∃ mark b cs, Parts s mark b cs := by
  cases h with
  | @based n b cs hb hcs =>
    refine ⟨['0', n], b, cs, rfl, ?_, fun c hc => digitIn_of_isBaseDigit hb (hcs c hc),
      .inr ⟨n, rfl, hb⟩⟩
    rw [radix, hb]
    rfl
  | @decimal c cs hc hcs =>
    have hdigits : ∀ c' ∈ c :: cs, c' = '_' ∨ (digitIn 10 c').isSome = true := by
      intro c' hc'
      rcases List.mem_cons.mp hc' with rfl | hc'
      · exact .inr (digitIn_isSome_of_isDigit hc)
      · exact digitIn_of_isDigitOrSep (hcs c' hc')
    exact ⟨[], 10, c :: cs, rfl, radix_of_digits hdigits, hdigits, .inl ⟨rfl, rfl, c, cs, rfl, hc⟩⟩

/-- The digits of a lexeme, without separators. -/
def unseparated (cs : List Char) : List Char := cs.filter (· != '_')

theorem Parts.head (h : Parts s mark b cs) : ∃ c rest, s = c :: rest ∧ c.isDigit = true := by
  rcases h.kind with ⟨hmark, -, c, cs', hcs, hc⟩ | ⟨n, hmark, -⟩
  · exact ⟨c, cs', by rw [h.text, hmark, hcs]; rfl, hc⟩
  · exact ⟨'0', n :: cs, by rw [h.text, hmark]; rfl, by decide⟩

theorem Parts.digits_unseparated (h : Parts s mark b cs) : Digits b (unseparated cs) := by
  intro c hc
  obtain ⟨hmem, hsep⟩ := List.mem_filter.mp hc
  exact (h.digits c hmem).resolve_left (by simpa using hsep)

theorem not_sign_of_isDigit {c : Char} (h : c.isDigit = true) : c ≠ '-' ∧ c ≠ '+' ∧ c ≠ '_' := by
  refine ⟨?_, ?_, ?_⟩ <;>
  · rintro rfl
    exact absurd h (by decide)

/-- `arche_int_lit` of a lexeme. -/
theorem Parts.archeIntLit_eq (h : Parts s mark b cs) :
    ∃ v : Int, archeIntLit s = (if unseparated cs ≠ [] then some v else none) ∧
      v ≡ value b (unseparated cs) [ZMOD 2 ^ 32] := by
  obtain ⟨c, rest, hs, hc⟩ := h.head
  obtain ⟨hminus, hplus, -⟩ := not_sign_of_isDigit hc
  have hsigned : archeIntLit s = (litUnsigned s).map fun v : Nat => long.wrap v := by
    rw [hs]
    unfold archeIntLit signed
    split
    · next heq => exact absurd (List.cons.inj heq).1 hminus
    · next heq => exact absurd (List.cons.inj heq).1 hplus
    · rfl
  obtain ⟨w, hw, hmod⟩ := litDigits_value h.digits false 0
  refine ⟨long.wrap w, ?_, ?_⟩
  · rw [hsigned, litUnsigned_radix, h.radix_eq, hw]
    simp only [Bool.false_eq_true, false_or]
    exact apply_ite (Option.map _) _ _ _
  · have hwrap : long.wrap w ≡ w [ZMOD 2 ^ 32] :=
      (long.wrap_modEq w).of_dvd (by decide)
    have hval : w ≡ value b (unseparated cs) [MOD 2 ^ 32] := by
      rw [Nat.zero_mul, Nat.zero_add] at hmod
      exact hmod.of_dvd (by decide)
    exact hwrap.trans (Int.natCast_modEq_iff.mpr hval)

/-- `wg_parse_int` of a lexeme reads the digits that fit its buffer. -/
theorem Parts.wgParseInt_eq (h : Parts s mark b cs) :
    wgParseInt s = int32.wrap (saturate (value b ((unseparated cs).take (79 - mark.length)))) := by
  have hdigits : Digits b ((unseparated cs).take (79 - mark.length)) :=
    fun c hc => h.digits_unseparated c (List.mem_of_mem_take hc)
  have hbuf : ∃ c rest, (s.filter (· != '_')).take 79 = c :: rest ∧ c.isDigit = true ∧
      radix (c :: rest) = (b, (unseparated cs).take (79 - mark.length)) := by
    rcases h.kind with ⟨rfl, rfl, c, cs', rfl, hc⟩ | ⟨n, rfl, hb⟩
    · obtain ⟨-, -, hsep⟩ := not_sign_of_isDigit hc
      have hbuf : (s.filter (· != '_')).take 79 = c :: (cs'.filter (· != '_')).take 78 := by
        rw [h.text]
        simp [hsep]
      have hcut : (unseparated (c :: cs')).take (79 - ([] : List Char).length) =
          c :: (cs'.filter (· != '_')).take 78 := by
        simp [unseparated, hsep]
      rw [hcut] at hdigits ⊢
      exact ⟨c, _, hbuf, hc, radix_of_digits fun c hc => .inr (hdigits c hc)⟩
    · have hn : n ≠ '_' := by
        rintro rfl
        have hnone : marker '_' = none := by decide
        rw [hnone] at hb
        cases hb
      refine ⟨'0', n :: (unseparated cs).take 77, ?_, by decide, ?_⟩
      · rw [h.text]
        simp [unseparated, hn]
      · rw [radix, hb]
        rfl
  obtain ⟨c, rest, hbuf, hc, hradix⟩ := hbuf
  obtain ⟨hminus, hplus, -⟩ := not_sign_of_isDigit hc
  have hunsigned : wgParseInt s = int32.wrap (wgUnsigned (c :: rest)) := by
    unfold wgParseInt
    rw [hbuf]
    split
    · next heq => exact absurd (List.cons.inj heq).1 hminus
    · next heq => exact absurd (List.cons.inj heq).1 hplus
    · rfl
  rw [hunsigned, wgUnsigned_radix, hradix, strtolIn_eq hdigits]

/-- What the GLSL compiler reads of a lexeme. -/
theorem glsl_eq_some (hdot : '.' ∉ s) (g : Nat) :
    (emitScalarLexeme false s).bind glslInt = some g ↔
      ('e' ∉ s ∧ 'E' ∉ s) ∧ s.length < 1024 ∧ g < 2 ^ 32 ∧ strtolUnsigned s = some g := by
  have hglsl : glslInt s = some g ↔ strtolUnsigned s = some g ∧ g < 2 ^ 32 := by
    simp only [glslInt, Option.filter_eq_some_iff, decide_eq_true_eq]
  simp only [emitScalarLexeme, gbPutf, hdot, false_or, Bool.false_eq_true, if_false]
  by_cases he : 'e' ∈ s ∨ 'E' ∈ s
  · simp only [he, decide_true, if_true, Option.bind_none]
    constructor
    · intro h
      cases h
    · rintro ⟨⟨he', hE'⟩, -⟩
      exact absurd he (by simp [he', hE'])
  · simp only [he, decide_false, Bool.false_eq_true, if_false]
    rw [not_or] at he
    by_cases hlen : s.length < 1024
    · rw [if_pos hlen, Option.bind_some, hglsl]
      constructor
      · rintro ⟨hread, hg⟩
        exact ⟨he, hlen, hg, hread⟩
      · rintro ⟨-, -, hg, hread⟩
        exact ⟨hread, hg⟩
    · simp [hlen]

theorem Parts.agree_iff (h : Parts s mark b cs) (hdot : '.' ∉ s) :
    Agree s ↔ unseparated cs ≠ [] ∧
      saturate (value b ((unseparated cs).take (79 - mark.length))) ≡
        value b (unseparated cs) [ZMOD 2 ^ 32] ∧
      ('e' ∉ s ∧ 'E' ∉ s) ∧ s.length < 1024 ∧
      ∃ g, strtolUnsigned s = some g ∧ g < 2 ^ 32 ∧ g ≡ value b (unseparated cs) [MOD 2 ^ 32] := by
  obtain ⟨v, hv, hmod⟩ := h.archeIntLit_eq
  have hwg : wgParseInt s ≡ saturate (value b ((unseparated cs).take (79 - mark.length)))
      [ZMOD 2 ^ 32] := by
    rw [h.wgParseInt_eq]
    exact int32.wrap_modEq _
  constructor
  · rintro ⟨v', g, hlit, -, hwg', hglsl, hg⟩
    rw [hv] at hlit
    obtain ⟨hne, hvv⟩ := Option.ite_none_right_eq_some.mp hlit
    obtain rfl := Option.some.inj hvv
    obtain ⟨he, hlen, hlt, hread⟩ := (glsl_eq_some hdot g).mp hglsl
    exact ⟨hne, (hwg.symm.trans hwg').trans hmod, he, hlen, g, hread, hlt,
      Int.natCast_modEq_iff.mp (hg.trans hmod)⟩
  · rintro ⟨hne, hsat, he, hlen, g, hread, hlt, hg⟩
    rw [if_pos hne] at hv
    have hfloat : litIsFloat s = false := by simp [litIsFloat, hv]
    exact ⟨v, g, hv, hfloat, (hwg.trans hsat).trans hmod.symm,
      (glsl_eq_some hdot g).mpr ⟨he, hlen, hlt, hread⟩,
      (Int.natCast_modEq_iff.mpr hg).trans hmod.symm⟩

/-- A number in 32 bits is read alike from a cut text only if the text was not cut, or is zero. -/
theorem cut_iff {k : Nat} (hb : 2 ≤ b) (h : Digits b cs) (hfits : value b cs < 2 ^ 32) :
    saturate (value b (cs.take k)) ≡ value b cs [ZMOD 2 ^ 32] ↔ cs.length ≤ k ∨ value b cs = 0 := by
  have hle : value b (cs.take k) ≤ value b cs := by
    rw [value_take h]
    exact Nat.div_le_self _ _
  have hsat : saturate (value b (cs.take k)) = value b (cs.take k) := by
    unfold saturate
    omega
  have hmod : saturate (value b (cs.take k)) ≡ value b cs [ZMOD 2 ^ 32] ↔
      value b (cs.take k) = value b cs := by
    rw [hsat]
    constructor
    · intro h
      exact Nat.ModEq.eq_of_lt_of_lt (m := 2 ^ 32) (Int.natCast_modEq_iff.mp h) (by omega) hfits
    · intro h
      rw [h]
  rw [hmod, value_take h]
  constructor
  · intro heq
    rcases Nat.lt_or_ge k cs.length with hk | hk
    · refine .inr ?_
      have hpow : 2 ≤ b ^ (cs.length - k) := by
        calc 2 ≤ b := hb
          _ ≤ b ^ (cs.length - k) := Nat.le_self_pow (by omega) b
      by_contra hne
      exact absurd heq (Nat.ne_of_lt (Nat.div_lt_self (Nat.pos_of_ne_zero hne) hpow))
    · exact .inl hk
  · rintro (hk | h0)
    · rw [Nat.sub_eq_zero_of_le hk, Nat.pow_zero, Nat.div_one]
    · rw [h0, Nat.zero_div]

theorem unseparated_eq (h : '_' ∉ cs) : unseparated cs = cs := by
  refine List.filter_eq_self.mpr fun c hc => ?_
  have hne : c ≠ '_' := fun heq => h (heq ▸ hc)
  simpa using hne

theorem not_mem_of_digits (h : Digits b cs) : '_' ∉ cs := by
  intro hmem
  exact absurd (h '_' hmem) (by simp [digitIn, digit])

theorem strtolUnsigned_based {n : Char} (hb : marker n = some b) (g : Nat) :
    strtolUnsigned ('0' :: n :: cs) = some g ↔
      b = 16 ∧ cs ≠ [] ∧ Digits 16 cs ∧ g = value 16 cs := by
  have hoctal (hn : (digitIn 8 n).isSome = false) : strtolDigits 8 (n :: cs) 0 ≠ some g := by
    intro h
    have := (strtolDigits_eq_some.mp h).1 n List.mem_cons_self
    rw [hn] at this
    cases this
  have hmark := mem_markers hb
  simp only [List.mem_cons, List.not_mem_nil, or_false] at hmark
  have hhex (hb : some 16 = some b) (hn : strtolUnsigned ['0', n] = none)
      (hcons : ∀ c cs, strtolUnsigned ('0' :: n :: c :: cs) = strtolDigits 16 (c :: cs) 0) :
      strtolUnsigned ('0' :: n :: cs) = some g ↔
        b = 16 ∧ cs ≠ [] ∧ Digits 16 cs ∧ g = value 16 cs := by
    obtain rfl := Option.some.inj hb
    cases cs with
    | nil => simp [hn]
    | cons c cs => simp [hcons, strtolDigits_eq_some]
  have hother (hb : b ≠ 16) (hn : strtolUnsigned ('0' :: n :: cs) = strtolDigits 8 (n :: cs) 0)
      (hd : (digitIn 8 n).isSome = false) :
      strtolUnsigned ('0' :: n :: cs) = some g ↔
        b = 16 ∧ cs ≠ [] ∧ Digits 16 cs ∧ g = value 16 cs := by
    rw [hn]
    exact ⟨fun h => absurd h (hoctal hd), fun h => absurd h.1 hb⟩
  rcases hmark with rfl | rfl | rfl | rfl | rfl | rfl
  · exact hhex hb rfl fun _ _ => rfl
  · exact hhex hb rfl fun _ _ => rfl
  · exact hother (by simp [marker] at hb; omega) rfl (by decide)
  · exact hother (by simp [marker] at hb; omega) rfl (by decide)
  · exact hother (by simp [marker] at hb; omega) rfl (by decide)
  · exact hother (by simp [marker] at hb; omega) rfl (by decide)

theorem strtolUnsigned_zero (h : ∀ c ∈ cs, c = '_' ∨ (digitIn 10 c).isSome = true) :
    strtolUnsigned ('0' :: cs) = strtolDigits 8 cs 0 := by
  have hmark (n : Char) (hn : n ∈ cs) : n ≠ 'x' ∧ n ≠ 'X' := by
    have hnone := marker_eq_none (h n hn)
    constructor <;>
    · rintro rfl
      exact absurd hnone (by decide)
  unfold strtolUnsigned
  split
  · next heq => cases heq
  · next heq =>
    obtain ⟨-, heq⟩ := List.cons.inj heq
    exact absurd rfl (hmark 'x' (by rw [heq]; simp)).1
  · next heq =>
    obtain ⟨-, heq⟩ := List.cons.inj heq
    exact absurd rfl (hmark 'X' (by rw [heq]; simp)).2
  · next heq => rw [(List.cons.inj heq).2]
  · next hne heq => exact (hne (List.cons.inj heq).1.symm).elim

theorem strtolUnsigned_nonzero {c : Char} (hc : c ≠ '0') :
    strtolUnsigned (c :: cs) = strtolDigits 10 (c :: cs) 0 := by
  unfold strtolUnsigned
  split
  · next heq => cases heq
  · next heq => exact absurd (List.cons.inj heq).1 hc
  · next heq => exact absurd (List.cons.inj heq).1 hc
  · next heq => exact absurd (List.cons.inj heq).1 hc
  · next heq => rw [heq]

/-- A lexeme with a base character: hexadecimal in 32 bits, without exponent letters, not cut. -/
theorem agree_based {n : Char} (h : Parts s ['0', n] b cs) (hb : marker n = some b)
    (hdot : '.' ∉ s) : Agree s ↔ Plain s := by
  have hs : s = '0' :: n :: cs := h.text
  have hlen : s.length = cs.length + 2 := by rw [hs]; rfl
  have hdenoted : denoted s = value b cs := by rw [denoted, h.radix_eq]
  have hcut : cs.length ≤ 79 - (['0', n] : List Char).length ↔ s.length ≤ 79 := by
    rw [hlen, List.length_cons, List.length_singleton]
    omega
  have hsep : '_' ∈ s ↔ '_' ∈ cs := by
    have hn : '_' ≠ n := by
      rintro rfl
      have hnone : marker '_' = none := by decide
      rw [hnone] at hb
      cases hb
    simp [hs, hn]
  rw [h.agree_iff hdot]
  constructor
  · rintro ⟨hne, hsat, he, h1024, g, hread, hlt, -⟩
    rw [hs] at hread
    obtain ⟨rfl, hcs, hdigits, rfl⟩ := (strtolUnsigned_based hb g).mp hread
    have hno := not_mem_of_digits hdigits
    rw [unseparated_eq hno, cut_iff (by omega) hdigits hlt, hcut] at hsat
    refine ⟨.inr (by rw [h.radix_eq]), by rwa [h.radix_eq], fun h => hno (hsep.mp h), he,
      by rwa [hdenoted], fun h10 => ?_, ?_⟩
    · rw [h.radix_eq] at h10
      exact absurd h10 (by simp)
    · rw [hdenoted]
      exact hsat.imp id fun h0 => ⟨h0, h1024⟩
  · intro hp
    have hb16 : b = 16 := by
      have hbase := hp.base
      rw [h.radix_eq] at hbase
      rcases hbase with hbase | hbase
      · have hne : (['x', 'X', 'b', 'B', 'o', 'O'].all fun n => marker n != some 10) = true := by
          decide
        have hn := List.all_eq_true.mp hne n (mem_markers hb)
        simp only [bne_iff_ne] at hn
        exact absurd (hbase ▸ hb) hn
      · exact hbase
    subst hb16
    have hno : '_' ∉ cs := fun h => hp.separator (hsep.mpr h)
    have hdigits := h.digits_unseparated
    rw [unseparated_eq hno] at hdigits ⊢
    have hcs : cs ≠ [] := by
      have := hp.digits
      rwa [h.radix_eq] at this
    have hfits := hp.fits
    have hshort := hp.short
    rw [hdenoted] at hfits hshort
    refine ⟨hcs, ?_, hp.exponent, by omega, value 16 cs, ?_, hfits, rfl⟩
    · rw [cut_iff (by omega) hdigits hfits, hcut]
      exact hshort.imp id And.left
    · rw [hs]
      exact (strtolUnsigned_based hb _).mpr ⟨rfl, hcs, hdigits, rfl⟩

/-- A decimal lexeme: in 32 bits, not cut, and after a leading zero only one digit that counts. -/
theorem agree_decimal {c : Char} (h : Parts s [] 10 (c :: cs)) (hc : c.isDigit = true)
    (hdot : '.' ∉ s) : Agree s ↔ Plain s := by
  have hs : s = c :: cs := h.text
  have hdenoted : denoted s = value 10 s := by rw [denoted, h.radix_eq, hs]
  have hexp : 'e' ∉ s ∧ 'E' ∉ s := by
    have he : ¬('e' = '_' ∨ (digitIn 10 'e').isSome = true) := by decide
    have hE : ¬('E' = '_' ∨ (digitIn 10 'E').isSome = true) := by decide
    rw [hs]
    exact ⟨fun hmem => he (h.digits _ hmem), fun hmem => hE (h.digits _ hmem)⟩
  -- What GLSL reads, by the first digit.
  have hglsl (hno : '_' ∉ s) : (∃ g, strtolUnsigned s = some g ∧ g < 2 ^ 32 ∧
      g ≡ value 10 s [MOD 2 ^ 32]) ↔ value 10 s < 2 ^ 32 ∧ (s.head? = some '0' → value 10 s ≤ 7) := by
    have hdigits : Digits 10 s := by
      have hdigits := h.digits_unseparated
      rwa [← hs, unseparated_eq hno] at hdigits
    by_cases h0 : c = '0'
    · subst h0
      have hval (b : Nat) : value b s = value b cs := by
        rw [hs, value_cons]
        simp [digit]
      have htail : Digits 10 cs := fun c hc => hdigits c (by rw [hs]; exact List.mem_cons_of_mem _ hc)
      rw [hs, strtolUnsigned_zero fun c hc => .inr (htail c hc), ← hs, hval]
      simp only [strtolDigits_eq_some]
      constructor
      · rintro ⟨g, ⟨hoct, rfl⟩, hlt, hmod⟩
        have h7 := (octal_reading htail).mp ⟨hoct, hlt, hmod⟩
        exact ⟨by omega, fun _ => h7⟩
      · rintro ⟨-, h7⟩
        obtain ⟨hoct, hlt, hmod⟩ := (octal_reading htail).mpr (h7 (by rw [hs]; rfl))
        exact ⟨_, ⟨hoct, rfl⟩, hlt, hmod⟩
    · have hhead : s.head? ≠ some '0' := by simpa [hs] using h0
      have hread : strtolUnsigned s = some (value 10 s) := by
        have hread : strtolUnsigned (c :: cs) = strtolDigits 10 (c :: cs) 0 :=
          strtolUnsigned_nonzero h0
        rw [← hs] at hread
        rw [hread]
        exact strtolDigits_eq_some.mpr ⟨hdigits, rfl⟩
      rw [hread]
      constructor
      · rintro ⟨g, hg, hlt, -⟩
        obtain rfl := Option.some.inj hg
        exact ⟨hlt, fun h => absurd h hhead⟩
      · rintro ⟨hlt, -⟩
        exact ⟨_, rfl, hlt, rfl⟩
  have hread : ∀ g, strtolUnsigned s = some g → '_' ∉ s := by
    intro g hread
    have hspec := (strtolUnsigned_spec hread).2
    intro hmem
    exact absurd (hspec '_' hmem) (by decide)
  rw [h.agree_iff hdot, ← hs]
  constructor
  · rintro ⟨-, hsat, he, h1024, g, hg, hlt, hmod⟩
    have hno := hread g hg
    have hdigits := h.digits_unseparated
    rw [← hs, unseparated_eq hno] at hdigits
    rw [unseparated_eq hno] at hsat hmod
    obtain ⟨hfits, h7⟩ := (hglsl hno).mp ⟨g, hg, hlt, hmod⟩
    rw [cut_iff (by omega) hdigits hfits] at hsat
    refine ⟨.inl (by rw [h.radix_eq]), by simp [h.radix_eq], hno, he, by rwa [hdenoted],
      fun _ hhead => by rw [hdenoted]; exact h7 hhead, ?_⟩
    rw [hdenoted]
    exact hsat.imp id fun h0 => ⟨h0, h1024⟩
  · intro hp
    have hno := hp.separator
    have hdigits := h.digits_unseparated
    have hfits := hp.fits
    have hshort := hp.short
    have h7 := hp.octal
    rw [← hs, unseparated_eq hno] at hdigits
    rw [hdenoted] at hfits hshort h7
    rw [unseparated_eq hno]
    refine ⟨by simp [hs], ?_, hexp, by omega, ?_⟩
    · rw [cut_iff (by omega) hdigits hfits]
      exact hshort.imp id And.left
    · exact (hglsl hno).mpr ⟨hfits, h7 (by rw [h.radix_eq])⟩

theorem agree_iff_plain (h : IntLexeme s) (hdot : '.' ∉ s) : Agree s ↔ Plain s := by
  obtain ⟨mark, b, cs, hparts⟩ := h.parts
  rcases hparts.kind with ⟨rfl, rfl, c, cs', rfl, hc⟩ | ⟨n, rfl, hb⟩
  · exact agree_decimal hparts hc hdot
  · exact agree_based hparts hb hdot

end Lexeme

/-! ## The lexer's integers -/

section Lexing

variable {l : Lexer}

theorem advance_of_cons {c : Char} {cs : List Char} (hrest : l.rest = c :: cs) (hc : c ≠ nul) :
    l.advance.pos = l.pos + 1 ∧ l.advance.rest = cs := by
  unfold Lexer.advance
  rw [hrest]
  simp only [hc, if_false]
  split <;> exact ⟨rfl, rfl⟩

theorem advanceBy_append {xs ys : List Char} (hrest : l.rest = xs ++ ys) (hxs : nul ∉ xs) :
    (l.advanceBy xs.length).pos = l.pos + xs.length ∧ (l.advanceBy xs.length).rest = ys := by
  induction xs generalizing l with
  | nil => exact ⟨rfl, hrest⟩
  | cons c xs ih =>
    obtain ⟨hc, hxs⟩ := not_or.mp (mt List.mem_cons.mpr hxs)
    obtain ⟨hpos, hadvance⟩ := advance_of_cons hrest (Ne.symm hc)
    obtain ⟨hpos', hrest'⟩ := ih hadvance hxs
    rw [List.length_cons, Lexer.advanceBy]
    exact ⟨by rw [hpos', hpos]; omega, hrest'⟩

/-- `advanceWhile` passes a run of characters that satisfy `p`. -/
theorem advanceWhile_spec (p : Char → Bool) (l : Lexer) : ∃ xs ys, l.rest = xs ++ ys ∧
    (∀ c ∈ xs, p c = true) ∧ nul ∉ xs ∧ (∀ c ∈ ys.head?, (p c && c != nul) = false) ∧
    (l.advanceWhile p).pos = l.pos + xs.length ∧ (l.advanceWhile p).rest = ys := by
  have hall : ∀ c ∈ l.rest.takeWhile fun c => p c && c != nul, p c = true ∧ c ≠ nul := by
    intro c hc
    simpa using List.mem_takeWhile_imp hc
  have hnul : nul ∉ l.rest.takeWhile fun c => p c && c != nul := fun h => (hall _ h).2 rfl
  have hsplit := (List.takeWhile_append_dropWhile (p := fun c => p c && c != nul) (l := l.rest)).symm
  refine ⟨_, _, hsplit, fun c hc => (hall c hc).1, hnul, ?_, advanceBy_append hsplit hnul⟩
  intro c hc
  have := List.head?_dropWhile_not (fun c => p c && c != nul) l.rest
  rw [Option.mem_def.mp hc] at this
  simpa using this

theorem text_makeToken (kind : TokenKind) {l' : Lexer} {xs ys : List Char}
    (hrest : l.rest = xs ++ ys) (hpos : l'.pos = l.pos + xs.length) :
    (makeToken kind l l').1.text = xs := by
  simp [makeToken, hrest, hpos]

/-- The text of a number token is an integer lexeme or has a fraction. -/
theorem lexNumber_text (hd : l.peek.isDigit = true) :
    IntLexeme (lexNumber l).1.text ∨ '.' ∈ (lexNumber l).1.text := by
  obtain ⟨c, cs, hrest⟩ : ∃ c cs, l.rest = c :: cs := by
    cases hrest : l.rest with
    | nil =>
      rw [Lexer.peek, hrest] at hd
      exact absurd hd (by decide)
    | cons c cs => exact ⟨c, cs, rfl⟩
  have hpeek : l.peek = c := by rw [Lexer.peek, hrest]; rfl
  rw [hpeek] at hd
  unfold lexNumber
  rw [hpeek]
  simp only [Bool.and_eq_true, Bool.or_eq_true, beq_iff_eq]
  split
  · next h =>
    obtain ⟨rfl, hn⟩ := h
    obtain ⟨n, cs', hcs⟩ : ∃ n cs', cs = n :: cs' := by
      cases cs with
      | nil =>
        have hnul : l.peekNext = nul := by rw [Lexer.peekNext, hrest]; rfl
        rw [hnul] at hn
        exact absurd hn (by decide)
      | cons n cs' => exact ⟨n, cs', rfl⟩
    subst hcs
    have hnext : l.peekNext = n := by rw [Lexer.peekNext, hrest]; rfl
    rw [hnext] at hn ⊢
    obtain ⟨b, hb⟩ : ∃ b, marker n = some b := by
      rcases hn with ((((rfl | rfl) | rfl) | rfl) | rfl) | rfl <;> exact ⟨_, rfl⟩
    have hnul : nul ∉ ['0', n] := by
      rcases hn with ((((rfl | rfl) | rfl) | rfl) | rfl) | rfl <;> decide
    have hfront : l.rest = ['0', n] ++ cs' := hrest
    obtain ⟨hpos, hrest2⟩ := advanceBy_append hfront hnul
    obtain ⟨xs, ys, hxs, hp, -, -, hpos', -⟩ :=
      advanceWhile_spec (isBaseDigit n) (l.advanceBy 2)
    rw [show l.advanceBy 2 = l.advanceBy ['0', n].length from rfl] at hxs hpos'
    rw [hrest2] at hxs
    have hall : l.rest = '0' :: n :: xs ++ ys := by
      rw [hrest, hxs]
      rfl
    rw [text_makeToken .number hall]
    · exact .inl (.based hb hp)
    · rw [show l.advanceBy 2 = l.advanceBy ['0', n].length from rfl, hpos', hpos]
      simp only [List.length_cons, List.length_nil]
      omega
  · obtain ⟨xs, ys, hxs, hp, -, hstop, hpos, hrest1⟩ := advanceWhile_spec isDigitOrSep l
    obtain ⟨xs', rfl⟩ : ∃ xs', xs = c :: xs' := by
      cases xs with
      | nil =>
        rw [hrest, List.nil_append] at hxs
        have hfalse := hstop c (by rw [← hxs]; rfl)
        have hcnul : c ≠ nul := by
          rintro rfl
          exact absurd hd (by decide)
        simp [isDigitOrSep, hd, hcnul] at hfalse
      | cons c' xs' =>
        rw [hrest, List.cons_append] at hxs
        exact ⟨xs', by rw [(List.cons.inj hxs).1]⟩
    split
    · next hdot =>
      refine .inr ?_
      have hys : ∃ ys', ys = '.' :: ys' := by
        have hpeek1 := hdot.1
        rw [Lexer.peek, hrest1] at hpeek1
        cases ys with
        | nil => exact absurd hpeek1 (by decide)
        | cons c' ys' => exact ⟨ys', by rw [← hpeek1]; rfl⟩
      obtain ⟨ys', rfl⟩ := hys
      obtain ⟨hpos2, hrest2⟩ := advance_of_cons hrest1 (by decide)
      obtain ⟨zs, ys'', hzs, -, -, -, hpos3, -⟩ :=
        advanceWhile_spec isDigitOrSep (l.advanceWhile isDigitOrSep).advance
      rw [hrest2] at hzs
      have hall : l.rest = c :: xs' ++ '.' :: zs ++ ys'' := by
        rw [hxs, hzs]
        simp
      rw [text_makeToken .number hall]
      · simp
      · rw [hpos3, hpos2, hpos]
        simp only [List.length_append, List.length_cons]
        omega
    · refine .inl ?_
      rw [text_makeToken .number hxs hpos]
      exact .decimal hd fun c' hc' => hp c' (List.mem_cons_of_mem _ hc')

/-- The decoders agree on the plain integers, and on no others the lexer makes. -/
theorem decoders_agree (hd : l.peek.isDigit = true) (hint : '.' ∉ (lexNumber l).1.text) :
    Agree (lexNumber l).1.text ↔ Plain (lexNumber l).1.text :=
  agree_iff_plain ((lexNumber_text hd).resolve_right hint) hint

theorem decoders_agree_hex :
    Agree (lexNumber (Lexer.init "0xFF;".toList)).1.text ↔
      Plain (lexNumber (Lexer.init "0xFF;".toList)).1.text :=
  decoders_agree (by decide) (by decide)

/-- `010` is ten, but eight in a shader. -/
theorem not_decoders_agree :
    ¬∀ l : Lexer, l.peek.isDigit = true → '.' ∉ (lexNumber l).1.text → Agree (lexNumber l).1.text := by
  intro h
  obtain ⟨v, g, hv, -, -, hg, hmod⟩ := h (Lexer.init "010".toList) (by decide) (by decide)
  have hv' : archeIntLit (lexNumber (Lexer.init "010".toList)).1.text = some 10 := by decide
  have hg' : (emitScalarLexeme false (lexNumber (Lexer.init "010".toList)).1.text).bind glslInt =
      some 8 := by decide
  obtain rfl := Option.some.inj (hv'.symm.trans hv)
  obtain rfl := Option.some.inj (hg'.symm.trans hg)
  exact absurd hmod (by decide)

end Lexing

end Arche.Codegen.IntLiterals
