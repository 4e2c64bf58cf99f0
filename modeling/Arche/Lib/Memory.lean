import Arche.Lib.Layers
import Mathlib.Data.Int.ModEq
import Mathlib.Data.List.Basic
import Mathlib.Data.List.Induction

/-!
# Memory as bits

A memory gives every object its bits. A `Cell` is a range of bits of one object, and a store puts
the low bits of a number there, the lowest first. `storeAll` makes a list of stores, each to the
cell of its key; a key may have none.

1. `holds_storeAll`, `storeAll_other`: where the cells are disjoint, each holds what its key was
   given last, and the rest is as before.
2. `storeAll_differs`, `storeAll_bit`: in a memory whose bits are all alike, one key that is given
   another number than the rest shows where its cell is.
-/

namespace Arche.Lib

structure Cell (ω : Type) where
  obj : ω
  off : Nat
  width : Nat
deriving DecidableEq, Repr

abbrev Memory (ω : Type) := ω → Nat → Bool

variable {ω κ : Type}

namespace Cell

/-- Bit `b` of `o` is one of the cell. -/
def Has (c : Cell ω) (o : ω) (b : Nat) : Prop := c.obj = o ∧ c.off ≤ b ∧ b < c.off + c.width

instance [DecidableEq ω] (c : Cell ω) (o : ω) (b : Nat) : Decidable (c.Has o b) :=
  inferInstanceAs (Decidable (_ ∧ _))

def Disjoint (c d : Cell ω) : Prop := ∀ o b, c.Has o b → ¬d.Has o b

/-- Bit `b` of a cell into which `v` was stored. -/
def bit (c : Cell ω) (v : Int) (b : Nat) : Bool := (BitVec.ofInt c.width v).getLsbD (b - c.off)

/-- The number whose bits are all `x`. -/
def filled (x : Bool) : Int := if x then -1 else 0

variable {c d : Cell ω} {o : ω} {b : Nat}

theorem has_first (h : 0 < c.width) : c.Has c.obj c.off :=
  ⟨rfl, Nat.le_refl _, Nat.lt_add_of_pos_right h⟩

theorem width_le_of_has (h : ∀ o b, c.Has o b → d.Has o b) : c.width ≤ d.width := by
  by_contra hlt
  have hlast : c.Has c.obj (c.off + c.width - 1) := ⟨rfl, by omega, by omega⟩
  obtain ⟨-, hlo, -⟩ := h _ _ (has_first (by omega))
  obtain ⟨-, -, hhi⟩ := h _ _ hlast
  omega

/-- Cells with the same bits are the same. -/
theorem eq_of_has (hc : 0 < c.width) (hcd : ∀ o b, c.Has o b → d.Has o b)
    (hdc : ∀ o b, d.Has o b → c.Has o b) : c = d := by
  have hwidth : c.width = d.width := Nat.le_antisymm (width_le_of_has hcd) (width_le_of_has hdc)
  obtain ⟨hobj, hlo, -⟩ := hcd _ _ (has_first hc)
  obtain ⟨-, hlo', -⟩ := hdc _ _ (has_first (hwidth ▸ hc))
  have hoff : c.off = d.off := Nat.le_antisymm hlo' hlo
  cases c
  cases d
  cases hobj
  cases hoff
  cases hwidth
  rfl

theorem toNat_ofInt_of_le {n w : Nat} (h : n ≤ w) (v : Int) :
    (BitVec.ofInt n v).toNat = (BitVec.ofInt w v).toNat % 2 ^ n := by
  have hdvd : ((2 ^ n : Nat) : Int) ∣ (2 ^ w : Nat) :=
    Int.natCast_dvd_natCast.mpr (Nat.pow_dvd_pow 2 h)
  have hpos : ((2 ^ w : Nat) : Int) ≠ 0 := Int.natCast_ne_zero.mpr (Nat.two_pow_pos w).ne'
  rw [BitVec.toNat_ofInt, BitVec.toNat_ofInt, ← Int.emod_emod_of_dvd v hdvd,
    Int.toNat_emod (Int.emod_nonneg v hpos) (Int.natCast_nonneg _), Int.toNat_natCast]

/-- The low bits of a number depend on it modulo a power of two only. -/
theorem bit_congr {n : Nat} {v v' : Int} (h : v ≡ v' [ZMOD (2 ^ n : Nat)]) (hb : b - c.off < n) :
    c.bit v b = c.bit v' b := by
  have hlow (v : Int) : c.bit v b =
      (decide (b - c.off < c.width) && (BitVec.ofInt n v).getLsbD (b - c.off)) := by
    rw [bit, BitVec.getLsbD, BitVec.getLsbD, toNat_ofInt_of_le (Nat.le_max_left c.width n),
      toNat_ofInt_of_le (Nat.le_max_right c.width n), Nat.testBit_mod_two_pow,
      Nat.testBit_mod_two_pow, decide_eq_true hb, Bool.true_and]
  have hval : BitVec.ofInt n v = BitVec.ofInt n v' := by
    refine BitVec.eq_of_toNat_eq ?_
    rw [BitVec.toNat_ofInt, BitVec.toNat_ofInt, h]
  rw [hlow, hlow, hval]

theorem bit_filled {x : Bool} (h : c.Has o b) : c.bit (filled x) b = x := by
  have hlt : b - c.off < c.width := by
    have := h.2
    omega
  cases x with
  | false => simp [bit, filled]
  | true => simp [bit, filled, BitVec.ofInt_neg, BitVec.neg_one_eq_allOnes, hlt]

end Cell

namespace Memory

variable [DecidableEq ω] {m : Memory ω} {c d : Cell ω} {v : Int} {o : ω} {b : Nat}

def store (m : Memory ω) (c : Cell ω) (v : Int) : Memory ω :=
  fun o b => if c.Has o b then c.bit v b else m o b

omit [DecidableEq ω] in
def Holds (m : Memory ω) (c : Cell ω) (v : Int) : Prop := ∀ o b, c.Has o b → m o b = c.bit v b

theorem store_of_has (h : c.Has o b) : m.store c v o b = c.bit v b := if_pos h

theorem store_of_not_has (h : ¬c.Has o b) : m.store c v o b = m o b := if_neg h

theorem holds_store (m : Memory ω) (c : Cell ω) (v : Int) : (m.store c v).Holds c v :=
  fun _ _ => store_of_has

theorem Holds.store {v' : Int} (h : m.Holds c v) (hcd : c.Disjoint d) :
    (m.store d v').Holds c v := by
  intro o b hb
  rw [store_of_not_has (hcd o b hb)]
  exact h o b hb

/-- A store to the cell of a key, which may have none. -/
def put (m : Memory ω) : Option (Cell ω) → Int → Memory ω
  | some c, v => m.store c v
  | none, _ => m

def storeAll (cell : κ → Option (Cell ω)) (m : Memory ω) (l : List (κ × Int)) : Memory ω :=
  l.foldl (fun m e => m.put (cell e.1) e.2) m

variable {cell : κ → Option (Cell ω)} {l : List (κ × Int)} {k : κ}

theorem storeAll_append (m : Memory ω) (l l' : List (κ × Int)) :
    storeAll cell m (l ++ l') = storeAll cell (storeAll cell m l) l' := List.foldl_append

/-- What is in no cell that was stored into is as before. -/
theorem storeAll_other (h : ∀ e ∈ l, ∀ c, cell e.1 = some c → ¬c.Has o b) :
    storeAll cell m l o b = m o b := by
  induction l generalizing m with
  | nil => rfl
  | cons e l ih =>
    have hl : storeAll cell (m.put (cell e.1) e.2) l o b = m.put (cell e.1) e.2 o b :=
      ih fun e he => h e (List.mem_cons_of_mem _ he)
    refine hl.trans ?_
    cases hc : cell e.1 with
    | none => rfl
    | some c => exact store_of_not_has (h e List.mem_cons_self c hc)

/-- A key whose cell no other key shares bits with holds what it was given last. -/
theorem holds_storeAll [DecidableEq κ]
    (hdisj : ∀ e ∈ l, ∀ d, e.1 ≠ k → cell e.1 = some d → c.Disjoint d)
    (hcell : cell k = some c) (hlast : lastOf k l = some v) : (storeAll cell m l).Holds c v := by
  induction l using List.reverseRecOn with
  | nil => exact nomatch hlast
  | append_singleton l e ih =>
    rw [storeAll_append]
    change ((storeAll cell m l).put (cell e.1) e.2).Holds c v
    rw [lastOf_append] at hlast
    by_cases he : e.1 = k
    · obtain rfl : e.2 = v := by simpa [lastOf, he] using hlast
      rw [he, hcell]
      exact holds_store _ c e.2
    · have hl : (storeAll cell m l).Holds c v := by
        refine ih (fun e he => hdisj e (List.mem_append_left _ he)) ?_
        simpa [lastOf, he] using hlast
      cases hd : cell e.1 with
      | none => exact hl
      | some d => exact hl.store (hdisj e (by simp) d he hd)

/-! ## Keys given their own numbers -/

/-- The stores that give each key its number. -/
def giving (r : κ → Int) (keys : List κ) : List (κ × Int) := keys.map fun k => (k, r k)

variable {r : κ → Int} {keys : List κ} {x : Bool}

theorem mem_of_giving {e : κ × Int} (h : e ∈ giving r keys) : e.1 ∈ keys := by
  obtain ⟨k, hk, rfl⟩ := List.mem_map.mp h
  exact hk

theorem lastOf_giving [DecidableEq κ] (h : k ∈ keys) : lastOf k (giving r keys) = some (r k) := by
  induction keys with
  | nil => exact nomatch h
  | cons k' keys ih =>
    change (lastOf k (giving r keys)).or (if k' = k then some (r k') else none) = some (r k)
    by_cases hk : k ∈ keys
    · rw [ih hk, Option.some_or]
    · obtain rfl : k = k' := (List.mem_cons.mp h).resolve_right hk
      have hnone : lastOf k (giving r keys) = none :=
        (lastOf_eq_none_iff k _).mpr fun e he heq => hk (heq ▸ mem_of_giving he)
      rw [hnone, Option.none_or, if_pos rfl]

/-- Where one key alone is given another number than the rest of the memory, what differs is in its
cell. -/
theorem storeAll_differs (h : ∀ k' ∈ keys, k' ≠ k → r k' = Cell.filled x) (hm : m o b = x)
    (hdiff : storeAll cell m (giving r keys) o b ≠ x) : ∃ c, cell k = some c ∧ c.Has o b := by
  by_contra hout
  refine hdiff ?_
  clear hdiff
  induction keys generalizing m with
  | nil => exact hm
  | cons k' keys ih =>
    refine ih (fun k₁ hk₁ => h k₁ (List.mem_cons_of_mem _ hk₁)) ?_
    change m.put (cell k') (r k') o b = x
    cases hc : cell k' with
    | none => exact hm
    | some c =>
      by_cases hb : c.Has o b
      · have hk : k' ≠ k := fun hk => hout ⟨c, hk ▸ hc, hb⟩
        rw [put, store_of_has hb, h k' List.mem_cons_self hk, Cell.bit_filled hb]
      · exact (store_of_not_has hb).trans hm

/-- A bit of one key's cell only is the one that key was given. -/
theorem storeAll_bit (hk : k ∈ keys) (hcell : cell k = some c) (hc : c.Has o b)
    (h : ∀ k' ∈ keys, k' ≠ k → ∀ d, cell k' = some d → ¬d.Has o b) :
    storeAll cell m (giving r keys) o b = c.bit (r k) b := by
  induction keys generalizing m with
  | nil => exact nomatch hk
  | cons k' keys ih =>
    change storeAll cell (m.put (cell k') (r k')) (giving r keys) o b = c.bit (r k) b
    have hrest := fun k₁ hk₁ => h k₁ (List.mem_cons_of_mem k' hk₁)
    by_cases hin : k ∈ keys
    · exact ih hin hrest
    · obtain rfl : k = k' := (List.mem_cons.mp hk).resolve_right hin
      have hother : ∀ e ∈ giving r keys, ∀ d, cell e.1 = some d → ¬d.Has o b := by
        intro e he
        have hmem := mem_of_giving he
        exact hrest e.1 hmem fun heq => hin (heq ▸ hmem)
      rw [storeAll_other hother, hcell]
      exact store_of_has hc

end Memory

end Arche.Lib
