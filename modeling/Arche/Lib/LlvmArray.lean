import Mathlib.Data.List.Basic
import Mathlib.Data.List.TakeWhile

/-!
# Byte array constants of LLVM

The constant `[n x i8] c"…"`. Its text ends at the next quote; in it a backslash and two hexadecimal
digits stand for one byte, two backslashes for one. A byte is a `Char` below 256. `readArray` gives
the size that is declared and the bytes of the initializer.
-/

namespace Arche.Lib.Llvm

/-- `%02X`. -/
def hexPair (n : Nat) : List Char :=
  [(Nat.digitChar (n / 16)).toUpper, (Nat.digitChar (n % 16)).toUpper]

def hexValue (c : Char) : Option Nat :=
  if '0' ≤ c ∧ c ≤ '9' then some (c.toNat - 48)
  else if 'A' ≤ c ∧ c ≤ 'F' then some (c.toNat - 55)
  else if 'a' ≤ c ∧ c ≤ 'f' then some (c.toNat - 87)
  else none

def hexByte (a b : Char) : Option Char :=
  (hexValue a).bind fun x => (hexValue b).map fun y => Char.ofNat (16 * x + y)

/-- The bytes of what stands between the quotes. -/
def unescape : List Char → List Char
  | [] => []
  | '\\' :: '\\' :: cs => '\\' :: unescape cs
  | '\\' :: a :: b :: cs =>
    match hexByte a b with
    | some byte => byte :: unescape cs
    | none => '\\' :: unescape (a :: b :: cs)
  | c :: cs => c :: unescape cs

/-- What stands between the size and the bytes. -/
def start : List Char := [' ', 'x', ' ', 'i', '8', ']', ' ', 'c', '"']

/-- The declared size and the bytes of a constant. -/
def readArray : List Char → Option (Nat × List Char)
  | '[' :: cs =>
    let size := cs.takeWhile Char.isDigit
    let rest := cs.dropWhile Char.isDigit
    let text := rest.drop start.length
    if size ≠ [] ∧ start.isPrefixOf rest ∧ text.dropWhile (· ≠ '"') = ['"'] then
      some (Nat.ofDigitChars 10 size 0, unescape (text.takeWhile (· ≠ '"')))
    else none
  | _ => none

/-! ## Reading what is written -/

theorem hexByte_hexPair (n : Fin 256) :
    hexByte (Nat.digitChar (n / 16)).toUpper (Nat.digitChar (n % 16)).toUpper =
      some (Char.ofNat n) ∧
    (Nat.digitChar (n / 16)).toUpper ≠ '\\' ∧
    (Nat.digitChar (n / 16)).toUpper ≠ '"' ∧ (Nat.digitChar (n % 16)).toUpper ≠ '"' := by
  revert n
  decide +kernel

theorem unescape_hexPair {c : Char} (hc : c.toNat < 256) (cs : List Char) :
    unescape ('\\' :: (hexPair c.toNat ++ cs)) = c :: unescape cs := by
  obtain ⟨hbyte, hslash, -⟩ := hexByte_hexPair ⟨c.toNat, hc⟩
  rw [hexPair, List.cons_append, List.cons_append, List.nil_append, unescape]
  · rw [hbyte, Char.ofNat_toNat]
  · exact hslash

theorem unescape_plain {c : Char} (hc : c ≠ '\\') (cs : List Char) :
    unescape (c :: cs) = c :: unescape cs := by
  rw [unescape]
  · exact fun _ h _ => hc h
  · exact fun _ _ _ h _ => hc h

theorem readArray_eq {text : List Char} (hquote : '"' ∉ text) (n : Nat) :
    readArray ('[' :: (Nat.toDigits 10 n ++ (start ++ (text ++ ['"'])))) =
      some (n, unescape text) := by
  have hdigits : ∀ c ∈ Nat.toDigits 10 n, c.isDigit = true :=
    fun c hc => Nat.isDigit_of_mem_toDigits (by decide) (by decide) hc
  have htext : ∀ c ∈ text, decide (c ≠ '"') = true :=
    fun c hc => decide_eq_true fun h => hquote (h ▸ hc)
  have hsize : (Nat.toDigits 10 n ++ (start ++ (text ++ ['"']))).takeWhile Char.isDigit =
      Nat.toDigits 10 n := by
    rw [List.takeWhile_append_of_pos hdigits]
    exact List.append_nil _
  have hrest : (Nat.toDigits 10 n ++ (start ++ (text ++ ['"']))).dropWhile Char.isDigit =
      start ++ (text ++ ['"']) := List.dropWhile_append_of_pos hdigits
  rw [readArray, hsize, hrest, List.drop_left, List.takeWhile_append_of_pos htext,
    List.dropWhile_append_of_pos htext, Nat.ofDigitChars_ten_toDigits]
  rw [if_pos ⟨Nat.toDigits_ne_nil, List.isPrefixOf_iff_prefix.mpr (List.prefix_append _ _), rfl⟩]
  simp

/-- A constant has an opening and a closing quote. -/
theorem two_le_count_of_readArray {t : List Char} {g : Nat × List Char}
    (h : readArray t = some g) : 2 ≤ t.count '"' := by
  unfold readArray at h
  split at h
  · next cs =>
    dsimp only at h
    split at h
    · next hread =>
      obtain ⟨-, hstart, hend⟩ := hread
      obtain ⟨text, htext⟩ := List.isPrefixOf_iff_prefix.mp hstart
      rw [← htext, List.drop_left] at hend
      have hclose : 1 ≤ text.count '"' := by
        rw [← List.takeWhile_append_dropWhile (p := (· ≠ '"')) (l := text), hend,
          List.count_append]
        simp
      have hopen : start.count '"' = 1 := by decide
      rw [← List.takeWhile_append_dropWhile (p := Char.isDigit) (l := cs), ← htext,
        List.count_cons, List.count_append, List.count_append]
      omega
    · cases h
  · cases h

end Arche.Lib.Llvm
