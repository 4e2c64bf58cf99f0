import Mathlib.Algebra.Order.Ring.Int
import Mathlib.Data.List.Basic
import Mathlib.Tactic.Common
import Mathlib.Tactic.Zify

/-!
# Reading bytes

A reader takes a value off the front of a byte string. Bytes are read as a value, `Reads`, if
they are taken off whatever follows them, so what is read from a concatenation is put
together from what is read from the parts.

* `times`, `vec` and `blob` for sequences, counted before or by their length.
* LEB128, of any number of bits: `uleb` and `sleb` write, `unsigned` and `signed` read. The
  readers take what fits in the bits only.
-/

namespace Arche.Lib

abbrev Bytes := List UInt8

abbrev Reader (α : Type) := StateT Bytes Option α

/-- The bytes are read as the value, whatever follows. -/
def Reads {α : Type} (r : Reader α) (bs : Bytes) (x : α) : Prop :=
  ∀ rest, r.run (bs ++ rest) = some (x, rest)

namespace Reader

variable {α β : Type}

/-- A byte that meets a test. -/
def byteIf (p : UInt8 → Bool) : Reader UInt8 := fun
  | [] => none
  | b :: bs => if p b then some (b, bs) else none

/-- This byte. -/
def exactly (b : UInt8) : Reader UInt8 := byteIf (· == b)

/-- `n` values. -/
def times (r : Reader α) : Nat → Reader (List α)
  | 0 => return []
  | n + 1 => do
    let x ← r
    let xs ← times r n
    return x :: xs

/-- `n` bytes. -/
def blob (n : Nat) : Reader Bytes := fun bs =>
  if n ≤ bs.length then some (bs.take n, bs.drop n) else none

/-- A part of `n` bytes, read to its end. -/
def within (n : Nat) (r : Reader α) : Reader α := do
  let part ← blob n
  match r.run part with
  | some (x, []) => return x
  | _ => failure

/-- The digits of an unsigned number of `n` bits, least significant first. The bit of weight 128
says that more follow. -/
def unsigned (n : Nat) : Reader Nat := fun
  | [] => none
  | b :: bs =>
    if b.toNat < 128 then if b.toNat < 2 ^ n then some (b.toNat, bs) else none
    else if 7 < n then (unsigned (n - 7) bs).map fun (v, bs) => (128 * v + (b.toNat - 128), bs)
    else none

/-- The digits of a two's complement number of `n` bits. -/
def signed (n : Nat) : Reader Int := fun
  | [] => none
  | b :: bs =>
    if b.toNat < 64 then if b.toNat < 2 ^ (n - 1) then some (b.toNat, bs) else none
    else if b.toNat < 128 then
      if 128 ≤ b.toNat + 2 ^ (n - 1) then some (b.toNat - 128, bs) else none
    else if 7 < n then (signed (n - 7) bs).map fun (v, bs) => (128 * v + (b.toNat - 128), bs)
    else none

/-- A count of `n` bits, and as many values. -/
def vec (n : Nat) (r : Reader α) : Reader (List α) := do
  let count ← unsigned n
  times r count

/-- A size of `n` bits, and as many bytes. -/
def sized (n : Nat) (r : Reader α) : Reader α := do
  let size ← unsigned n
  within size r

end Reader

open Reader

/-! ## Writing numbers -/

/-- Unsigned LEB128. -/
def uleb (v : Nat) : Bytes :=
  if v < 128 then [UInt8.ofNat v] else UInt8.ofNat (v % 128 + 128) :: uleb (v / 128)

theorem uleb_ne_nil (v : Nat) : uleb v ≠ [] := by
  unfold uleb
  split <;> exact List.cons_ne_nil _ _

/-- Signed LEB128. -/
def sleb (v : Int) : Bytes :=
  if -64 ≤ v ∧ v < 64 then [UInt8.ofNat (v % 128).toNat]
  else UInt8.ofNat ((v % 128).toNat + 128) :: sleb (v / 128)
termination_by v.natAbs

/-! ## What is read -/

theorem toNat_ofNat_of_lt {n : Nat} (h : n < 256) : (UInt8.ofNat n).toNat = n :=
  UInt8.toNat_ofNat_of_lt' h

namespace Reads

variable {α β : Type} {r : Reader α} {f : α → Reader β} {bs bs' : Bytes} {x : α} {y : β}

theorem pure (x : α) : Reads (Pure.pure x) [] x := fun _ => rfl

theorem bind (hr : Reads r bs x) (hf : Reads (f x) bs' y) : Reads (r >>= f) (bs ++ bs') y := by
  intro rest
  rw [StateT.run_bind, List.append_assoc, hr]
  exact hf rest

/-- What follows reads no bytes. -/
theorem last (hr : Reads r bs x) (hf : Reads (f x) [] y) : Reads (r >>= f) bs y := by
  have h := hr.bind hf
  rwa [List.append_nil] at h

theorem map {g : α → β} (hr : Reads r bs x) : Reads (r >>= fun x => Pure.pure (g x)) bs (g x) :=
  hr.last (pure (g x))

theorem byteIf {p : UInt8 → Bool} {b : UInt8} (hp : p b = true) : Reads (Reader.byteIf p) [b] b := by
  intro rest
  show (if p b = true then some (b, rest) else none) = some (b, rest)
  rw [if_pos hp]

theorem exactly (b : UInt8) : Reads (Reader.exactly b) [b] b := byteIf (beq_self_eq_true b)

theorem blob (bs : Bytes) : Reads (Reader.blob bs.length) bs bs := by
  intro rest
  simp [Reader.blob, StateT.run]

theorem within (hr : Reads r bs x) : Reads (Reader.within bs.length r) bs x := by
  have h := hr []
  rw [List.append_nil] at h
  refine (blob bs).last ?_
  rw [h]
  exact pure x

theorem times_zero : Reads (times r 0) [] [] := fun _ => rfl

theorem times_succ {n : Nat} {xs : List α} (hr : Reads r bs x) (hs : Reads (times r n) bs' xs) :
    Reads (times r (n + 1)) (bs ++ bs') (x :: xs) := hr.bind hs.map

/-- One more value at the end. -/
theorem times_snoc {n : Nat} {xs : List α} (hs : Reads (times r n) bs xs) (hr : Reads r bs' x) :
    Reads (times r (n + 1)) (bs ++ bs') (xs ++ [x]) := by
  have hsnoc : ∀ n, times r (n + 1) = times r n >>= fun xs => r >>= fun x => Pure.pure (xs ++ [x]) := by
    intro n
    induction n with
    | zero => rfl
    | succ n ih =>
      show (r >>= fun x => times r (n + 1) >>= fun xs => Pure.pure (x :: xs)) =
        (r >>= fun x => times r n >>= fun xs => Pure.pure (x :: xs)) >>= _
      rw [ih]
      simp only [bind_assoc, pure_bind, List.cons_append]
  rw [hsnoc]
  exact hs.bind hr.map

/-- A number that fits is read from its digits. -/
theorem unsigned {n v : Nat} (hv : v < 2 ^ n) : Reads (Reader.unsigned n) (uleb v) v := by
  intro rest
  show Reader.unsigned n (uleb v ++ rest) = _
  induction v using Nat.strongRecOn generalizing n with
  | ind v ih =>
    unfold uleb
    split
    · next hlt =>
      have hb : (UInt8.ofNat v).toNat = v := toNat_ofNat_of_lt (by omega)
      rw [List.singleton_append, Reader.unsigned, hb, if_pos hlt, if_pos hv]
    · next hge =>
      have hb : (UInt8.ofNat (v % 128 + 128)).toNat = v % 128 + 128 :=
        toNat_ofNat_of_lt (by omega)
      have hn : 7 < n := by
        by_contra hn
        have : 2 ^ n ≤ 2 ^ 7 := Nat.pow_le_pow_right (by decide) (by omega)
        omega
      have hsmall : v / 128 < 2 ^ (n - 7) := by
        rw [Nat.div_lt_iff_lt_mul (by decide), show 128 = 2 ^ 7 from rfl, ← Nat.pow_add,
          Nat.sub_add_cancel (by omega)]
        exact hv
      rw [List.cons_append, Reader.unsigned, hb, if_neg (by omega), if_pos hn,
        ih (v / 128) (by omega) hsmall]
      show some (128 * (v / 128) + (v % 128 + 128 - 128), rest) = some (v, rest)
      rw [Nat.add_sub_cancel, Nat.div_add_mod]

theorem signed {n : Nat} {v : Int} (hlow : -2 ^ (n - 1) ≤ v) (hhigh : v < 2 ^ (n - 1)) :
    Reads (Reader.signed n) (sleb v) v := by
  intro rest
  show Reader.signed n (sleb v ++ rest) = _
  induction v using sleb.induct generalizing n with
  | case1 v hv =>
    have hb : (UInt8.ofNat (v % 128).toNat).toNat = (v % 128).toNat :=
      toNat_ofNat_of_lt (by omega)
    rw [sleb, if_pos hv, List.singleton_append, Reader.signed, hb]
    split
    · next hlt =>
      have heq : ((v % 128).toNat : Int) = v := by omega
      have hfits : (v % 128).toNat < 2 ^ (n - 1) := by
        zify
        rwa [heq]
      rw [if_pos hfits, heq]
    · next hge =>
      have heq : ((v % 128).toNat : Int) = v + 128 := by omega
      have hfits : 128 ≤ (v % 128).toNat + 2 ^ (n - 1) := by
        zify
        omega
      rw [if_pos (by omega), if_pos hfits, heq, Int.add_sub_cancel]
  | case2 v hv ih =>
    have hb : (UInt8.ofNat ((v % 128).toNat + 128)).toNat = (v % 128).toNat + 128 :=
      toNat_ofNat_of_lt (by omega)
    have hn : 7 < n := by
      by_contra hn
      have : 2 ^ (n - 1) ≤ 2 ^ 6 := Nat.pow_le_pow_right (by decide) (by omega)
      zify at this
      omega
    have hpow : (2 : Int) ^ (n - 1) = 128 * 2 ^ (n - 7 - 1) := by
      rw [show (128 : Int) = 2 ^ 7 from rfl, ← Int.pow_add]
      congr 1
      omega
    rw [sleb, if_neg hv, List.cons_append, Reader.signed, hb, if_neg (by omega), if_neg (by omega),
      if_pos hn, ih (by omega) (by omega)]
    show some (128 * (v / 128) + (((v % 128).toNat + 128 : Nat) - 128), rest) = some (v, rest)
    rw [show 128 * (v / 128) + (((v % 128).toNat + 128 : Nat) - 128) = v by omega]

theorem vec {n : Nat} {xs : List α} (hn : xs.length < 2 ^ n) (hs : Reads (times r xs.length) bs xs) :
    Reads (Reader.vec n r) (uleb xs.length ++ bs) xs := (unsigned hn).bind hs

theorem sized {n : Nat} (hn : bs.length < 2 ^ n) (hr : Reads r bs x) :
    Reads (Reader.sized n r) (uleb bs.length ++ bs) x := (unsigned hn).bind hr.within

end Reads

/-! ## A table that grows -/

/-- `n` entries one behind the other, that are read as the values while there are fewer than
2^k bytes of them. -/
structure Entries {α : Type} (r : Reader α) (k n : Nat) (bs : Bytes) (xs : List α) : Prop where
  count : n = xs.length
  short : n ≤ bs.length
  reads : bs.length < 2 ^ k → Reads (times r n) bs xs

namespace Entries

variable {α : Type} {r : Reader α} {k n : Nat} {bs bs' : Bytes} {xs : List α} {x : α}

theorem empty : Entries r k 0 [] [] := ⟨rfl, Nat.le_refl 0, fun _ => Reads.times_zero⟩

theorem add (h : Entries r k n bs xs) (hne : bs' ≠ [])
    (hr : bs'.length < 2 ^ k → Reads r bs' x) : Entries r k (n + 1) (bs ++ bs') (xs ++ [x]) where
  count := by rw [h.count, List.length_append, List.length_singleton]
  short := by
    have := List.length_pos_of_ne_nil hne
    have := h.short
    rw [List.length_append]
    omega
  reads hlt := by
    rw [List.length_append] at hlt
    exact (h.reads (by omega)).times_snoc (hr (by omega))

theorem vec (h : Entries r k n bs xs) (hlt : bs.length < 2 ^ k) :
    Reads (Reader.vec k r) (uleb n ++ bs) xs := by
  have hn := h.count
  subst hn
  exact Reads.vec (Nat.lt_of_le_of_lt h.short hlt) (h.reads hlt)

end Entries

end Arche.Lib
