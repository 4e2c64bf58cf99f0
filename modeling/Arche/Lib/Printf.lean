import Mathlib.Data.Nat.Digits.Lemmas

/-!
# Texts that `printf` makes

Numbers in decimal and in padded hexadecimal, and a text cut to the size of a buffer.
-/

namespace Arche.Lib

/-- `%d` and `%u` of a number that is not negative. -/
def printDecimal (n : Nat) : List Char := Nat.toDigits 10 n

/-- `%0*x`. -/
def paddedHex (width n : Nat) : List Char :=
  List.replicate (width - (Nat.toDigits 16 n).length) '0' ++ Nat.toDigits 16 n

/-- What `snprintf` leaves in a buffer of `size` bytes. -/
def snprintf (size : Nat) (text : List Char) : List Char := text.take (size - 1)

theorem printDecimal_inj {m n : Nat} (h : printDecimal m = printDecimal n) : m = n := by
  have hm := Nat.ofDigitChars_ten_toDigits (n := m)
  have hn := Nat.ofDigitChars_ten_toDigits (n := n)
  unfold printDecimal at h
  rw [← hm, h, hn]

theorem notMem_printDecimal {c : Char} (hc : c.isDigit = false) (n : Nat) :
    c ∉ printDecimal n := fun h =>
  Bool.noConfusion (hc.symm.trans (Nat.isDigit_of_mem_toDigits (by decide) (by decide) h))

theorem length_printDecimal_le {n d : Nat} (hd : 0 < d) (h : n < 10 ^ d) :
    (printDecimal n).length ≤ d :=
  (Nat.length_toDigits_le_iff (by decide) hd).mpr h

theorem length_paddedHex {width n : Nat} (hw : 0 < width) (h : n < 16 ^ width) :
    (paddedHex width n).length = width := by
  have hle : (Nat.toDigits 16 n).length ≤ width :=
    (Nat.length_toDigits_le_iff (by decide) hw).mpr h
  rw [paddedHex, List.length_append, List.length_replicate, Nat.sub_add_cancel hle]

theorem mem_toDigits {b n : Nat} {c : Char} (hb : 1 < b) (h : c ∈ Nat.toDigits b n) :
    ∃ d, d < b ∧ c = Nat.digitChar d := by
  induction n using Nat.strongRecOn with
  | ind n ih =>
    rcases Nat.lt_or_ge n b with hn | hn
    · rw [Nat.toDigits_of_lt_base hn, List.mem_singleton] at h
      exact ⟨n, hn, h⟩
    · rw [Nat.toDigits_of_base_le hb hn, List.mem_append, List.mem_singleton] at h
      rcases h with hfront | hlast
      · exact ih (n / b) (Nat.div_lt_self (by omega) hb) hfront
      · exact ⟨n % b, Nat.mod_lt _ (by omega), hlast⟩

theorem isHex_of_mem_paddedHex {width n : Nat} {c : Char} (h : c ∈ paddedHex width n) :
    ∃ d, d < 16 ∧ c = Nat.digitChar d := by
  rcases List.mem_append.mp h with hzero | hdigit
  · exact ⟨0, by decide, List.eq_of_mem_replicate hzero⟩
  · exact mem_toDigits (by decide) hdigit

theorem snprintf_of_lt {size : Nat} {text : List Char} (h : text.length < size) :
    snprintf size text = text :=
  List.take_of_length_le (by omega)

end Arche.Lib
