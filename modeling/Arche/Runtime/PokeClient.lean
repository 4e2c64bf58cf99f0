import Arche.Lib.Printf
import Arche.Runtime.InspectPoke

/-!
# The client of `POKE`

`do_poke` of cmd_inspect.c prints a request and its newline into 256 bytes, with the bytes of the
new value in hexadecimal. The server that handles it gets them into the cell that was meant, or
changes nothing (`handle_pokeRequest`).
-/

namespace Arche.Runtime.Inspect

open Arche.Lib

/-- `%ld` and `%d`. -/
def printLong (v : Int) : Text :=
  if v < 0 then '-' :: printDecimal v.natAbs else printDecimal v.natAbs

/-- `hex`, with `%02x` for each byte. -/
def printHex (bytes : List (BitVec 8)) : Text := bytes.flatMap fun b => paddedHex 2 b.toNat

/-- `"POKE %s %ld %d %d 0 %s"`. -/
def pokeRequest (pool : Text) (slot : Int) (gen fidx : Nat) (bytes : List (BitVec 8)) : Text :=
  "POKE".toList ++ ' ' :: (pool ++ ' ' :: (printLong slot ++ ' ' :: (printLong gen ++
    ' ' :: (printLong fidx ++ ' ' :: (printLong 0 ++ ' ' :: printHex bytes)))))

/-! ## What is read -/

theorem isSpace_digitChar : ∀ d < 16, isSpace (Nat.digitChar d) = false := by decide

theorem isDigit_of_mem_printDecimal {n : Nat} {c : Char} (h : c ∈ printDecimal n) :
    c.isDigit = true := Nat.isDigit_of_mem_toDigits (by decide) (by decide) h

theorem isSpace_of_mem_printDecimal {n : Nat} {c : Char} (h : c ∈ printDecimal n) :
    isSpace c = false := by
  obtain ⟨d, hd, rfl⟩ := mem_toDigits (by decide) h
  exact isSpace_digitChar d (by omega)

/-- A word is read up to a blank. -/
theorem scanStr_word {n : Nat} {w t : Text} (hw : ∀ c ∈ w, isSpace c = false) (hne : w ≠ [])
    (hlen : w.length ≤ n) (ht : t.takeWhile (fun c => !isSpace c) = []) :
    scanStr n (w ++ t) = some (w, t) := by
  have hdrop : (w ++ t).dropWhile isSpace = w ++ t := by
    obtain ⟨c, cs, rfl⟩ := List.exists_cons_of_ne_nil hne
    exact List.dropWhile_cons_of_neg (Bool.eq_false_iff.mp (hw c List.mem_cons_self))
  have htake : (w ++ t).takeWhile (fun c => !isSpace c) = w := by
    rw [List.takeWhile_append_of_pos fun c hc => by rw [hw c hc]; rfl, ht, List.append_nil]
  rw [scanStr, hdrop, htake, List.take_of_length_le hlen, if_neg hne, List.drop_left]

theorem digitsValue_printDecimal (n : Nat) : digitsValue (printDecimal n) = n := by
  have h := Nat.ofDigitChars_ten_toDigits (n := n)
  rwa [Nat.ofDigitChars_eq_foldl] at h

theorem takeWhile_printDecimal (n : Nat) (rest : Text) :
    (printDecimal n ++ ' ' :: rest).takeWhile Char.isDigit = printDecimal n := by
  rw [List.takeWhile_append_of_pos fun c hc => isDigit_of_mem_printDecimal hc]
  exact List.append_nil _

/-- A number that a `long` holds is read back. -/
theorem scanLong_printLong {v : Int} (hlo : -2 ^ 63 ≤ v) (hhi : v < 2 ^ 63) (rest : Text) :
    scanLong (printLong v ++ ' ' :: rest) = some (v, ' ' :: rest) := by
  have hne : printDecimal v.natAbs ≠ [] := Nat.toDigits_ne_nil
  have hclamp : clampLong v = v := by
    unfold clampLong
    omega
  rw [printLong]
  split
  next hneg =>
    have hdrop : ('-' :: printDecimal v.natAbs ++ ' ' :: rest).dropWhile isSpace =
        '-' :: (printDecimal v.natAbs ++ ' ' :: rest) := rfl
    rw [scanLong, hdrop]
    simp only [List.head?_cons, true_or, if_true, List.tail_cons, takeWhile_printDecimal,
      if_neg hne, digitsValue_printDecimal, List.drop_left]
    rw [show -(v.natAbs : Int) = v by omega, hclamp]
  next hpos =>
    obtain ⟨c, cs, hcs⟩ := List.exists_cons_of_ne_nil hne
    have hmem : c ∈ printDecimal v.natAbs := hcs ▸ List.mem_cons_self
    have hdrop : (printDecimal v.natAbs ++ ' ' :: rest).dropWhile isSpace =
        printDecimal v.natAbs ++ ' ' :: rest := by
      rw [hcs]
      exact List.dropWhile_cons_of_neg (Bool.eq_false_iff.mp (isSpace_of_mem_printDecimal hmem))
    have hsign : ∀ s : Char, s.isDigit = false →
        (printDecimal v.natAbs ++ ' ' :: rest).head? ≠ some s := by
      intro s hs heq
      rw [hcs] at heq
      cases heq
      exact notMem_printDecimal hs _ hmem
    rw [scanLong, hdrop]
    simp only [hsign '-' rfl, hsign '+' rfl, or_self, if_false, takeWhile_printDecimal, if_neg hne,
      digitsValue_printDecimal, List.drop_left]
    rw [show (v.natAbs : Int) = v by omega, hclamp]

theorem decodeHex_byte (n : Fin 256) : ∃ hi lo, paddedHex 2 n = [hi, lo] ∧
    ∃ h l, hexNibble hi = some h ∧ hexNibble lo = some l ∧ 16 * h + l = n := by
  refine ⟨Nat.digitChar (n / 16), Nat.digitChar (n % 16), ?_, n / 16, n % 16, ?_, ?_, by omega⟩ <;>
    revert n <;> decide +kernel

theorem decodeHex_printHex (bytes : List (BitVec 8)) :
    decodeHex (printHex bytes) = some bytes := by
  induction bytes with
  | nil => rfl
  | cons b bytes ih =>
    obtain ⟨hi, lo, hpair, h, l, hh, hl, hvalue⟩ := decodeHex_byte b.toFin
    rw [printHex, List.flatMap_cons, ← printHex, show paddedHex 2 b.toNat = [hi, lo] from hpair]
    simp only [List.cons_append, List.nil_append, decodeHex, hh, hl, ih, Option.bind_eq_bind,
      Option.bind_some, Option.pure_def, hvalue]
    simp

theorem isSpace_of_mem_printHex {bytes : List (BitVec 8)} {c : Char} (h : c ∈ printHex bytes) :
    isSpace c = false := by
  obtain ⟨b, -, hc⟩ := List.mem_flatMap.mp h
  obtain ⟨d, hd, rfl⟩ := isHex_of_mem_paddedHex hc
  exact isSpace_digitChar d hd

theorem scanStr_poke (t : Text) :
    scanStr 31 ("POKE".toList ++ ' ' :: t) = some ("POKE".toList, ' ' :: t) :=
  scanStr_word (by simp [isSpace]) (by decide) (by decide) rfl

section Request
variable {pool : Text} {slot : Int} {gen fidx : Nat} {bytes : List (BitVec 8)}
  (hpool : ∀ c ∈ pool, isSpace c = false) (hne : pool ≠ []) (hslot : -2 ^ 63 ≤ slot ∧ slot < 2 ^ 63)
  (hgen : gen < 2 ^ 31) (hfidx : fidx < 2 ^ 31) (hbytes : bytes ≠ [])
  (hfit : (pokeRequest pool slot gen fidx bytes).length < 255)
include hpool hne hslot hgen hfidx hbytes hfit

/-- The request that the server reads is the one that the client has printed. -/
theorem parsePoke_pokeRequest : parsePoke (pokeRequest pool slot gen fidx bytes) =
    some ⟨pool, slot, gen, fidx, 0, printHex bytes⟩ := by
  have hhex : printHex bytes ≠ [] := by
    intro hnil
    have hdecode := decodeHex_printHex bytes
    rw [hnil] at hdecode
    exact hbytes (Option.some.inj hdecode).symm
  simp only [pokeRequest, List.length_append, List.length_cons] at hfit
  have hlast := scanStr_word (n := 2047) (t := []) (fun c => isSpace_of_mem_printHex) hhex
    (by omega) rfl
  rw [List.append_nil] at hlast
  have hblank : ∀ n s, scanStr n (' ' :: s) = scanStr n s := fun _ _ => rfl
  have hblank' : ∀ s, scanLong (' ' :: s) = scanLong s := fun _ => rfl
  rw [parsePoke, pokeRequest, scanStr_poke]
  simp only [Option.bind_eq_bind, Option.bind_some, hblank, hblank', hlast, Option.pure_def,
    scanStr_word (n := 255) hpool hne (by omega) (t := ' ' :: _) rfl,
    scanLong_printLong hslot.1 hslot.2, scanLong_printLong (v := gen) (by omega) (by omega),
    scanLong_printLong (v := fidx) (by omega) (by omega),
    scanLong_printLong (v := 0) (by omega) (by omega)]

end Request

end Arche.Runtime.Inspect
