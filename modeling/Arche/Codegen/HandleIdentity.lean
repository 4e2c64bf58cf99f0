import Arche.Codegen.PoolCapacity

/-!
# Handles name one row

The generation of a slot is bumped when its row is deleted or evicted, so a handle is
accepted as long as its row is there. This module keeps a history beside the pool: which
insert put the row of each slot there, the handles of the inserts, and the handles the
program holds, those an `each` fan minted for a row among them.

Three writes do not fit:

* `codegen_emit_alloc_init` leaves generation `0`, so the handle `0` of a failed insert
  passes the check on slot `0` until an insert takes it;
* the bump of an eviction goes from `2^31 - 1` to the dead bit, and the row is issued
  generation `1` again;
* `emit_sort` moves the rows and resets their generations.

1. `handles_identify`: in every run without them a handle is issued once and accepted
   exactly while its row is there.
2. `not_handles_identify`: in a pool that starts full an insert fails and its handle `0`
   deletes the first row.
-/

namespace Arche.Codegen

open Arche.Lib PoolLemmas

variable {ρ : Type} {cap : Nat}

/-! ## The history of a pool -/

/-- A pool, the handles of its successful inserts with the oldest first, the insert whose row is in a
slot, and the handles the program holds. -/
structure Life (ρ : Type) (cap : Nat) where
  pool : Pool ρ cap
  issued : List (BitVec 64)
  occupant : Int → Option Nat
  held : List (BitVec 64)

/-- The calls on a pool. `mint` is a fan that visits the row of a slot, `cell` is `@arche_cell_P`, and
`sort` moves the row of slot `perm i` to slot `i`. -/
inductive LifeOp (ρ : Type) (cap : Nat) where
  | insert (row : ρ) (evictSlot : Int)
  | delete (handle : BitVec 64)
  | cell (handle : BitVec 64)
  | mint (slot : Int)
  | sort (perm : Equiv.Perm (Fin cap))

/-- The generation check of `@arche_delete_P` and `@arche_cell_P`. -/
def Pool.Passes (p : Pool ρ cap) (h : BitVec 64) : Prop := p.gen (handleSlot h) = some (handleGen h)

instance (p : Pool ρ cap) (h : BitVec 64) : Decidable (p.Passes h) :=
  inferInstanceAs (Decidable (_ = _))

/-- The pool whose declaration is `[cap]P(length)`. -/
def Life.start (cap : Nat) (zero : ρ) (length : Int) : Life ρ cap :=
  ⟨allocInit cap zero length, [], fun _ => none, []⟩

/-- The history after an insert. -/
def Life.inserted (s : Life ρ cap) (o : Outcome ρ cap) : Life ρ cap :=
  match o.slot with
  | some slot =>
    ⟨o.pool, s.issued ++ [o.handle], Function.update s.occupant slot (some s.issued.length),
      o.handle :: s.held⟩
  | none => ⟨o.pool, s.issued, s.occupant, o.handle :: s.held⟩

/-- The history after a delete. -/
def Life.deleted (s : Life ρ cap) (o : Outcome ρ cap) : Life ρ cap :=
  match o.slot with
  | some slot => ⟨o.pool, s.issued, Function.update s.occupant slot none, s.held⟩
  | none => ⟨o.pool, s.issued, s.occupant, s.held⟩

/-- The row that `perm` moves to a slot. -/
def movedTo (occupant : Int → Option Nat) (perm : Equiv.Perm (Fin cap)) (slot : Int) : Option Nat :=
  if h : slot.toNat < cap then occupant (perm ⟨slot.toNat, h⟩) else none

/-- The history after a sort. -/
def Life.sorted (s : Life ρ cap) (perm : Equiv.Perm (Fin cap)) : Life ρ cap :=
  ⟨s.pool.sortTrim (Vector.ofFn fun i => s.pool.rows[perm i]), s.issued, movedTo s.occupant perm, s.held⟩

/-- One call that returns. A handle that is passed is one the program holds. -/
inductive Life.Step : Life ρ cap → LifeOp ρ cap → Life ρ cap → Prop
  | insert {s : Life ρ cap} {row : ρ} {ev : Int} {o : Outcome ρ cap} :
      ev = -1 ∨ (0 ≤ ev ∧ ev < cap) → archeInsert s.pool row ev = some o →
      Life.Step s (.insert row ev) (s.inserted o)
  | delete {s : Life ρ cap} {h : BitVec 64} {o : Outcome ρ cap} :
      h ∈ s.held → archeDelete s.pool h = some o → o.aborted = false →
      Life.Step s (.delete h) (s.deleted o)
  | cell {s : Life ρ cap} {h : BitVec 64} : h ∈ s.held → s.pool.Passes h → Life.Step s (.cell h) s
  | mint {s : Life ρ cap} {slot : Int} {g : BitVec 32} :
      0 ≤ slot → slot < s.pool.count → s.pool.gen slot = some g → dead g = false →
      Life.Step s (.mint slot) { s with held := packHandle slot g :: s.held }
  | sort {s : Life ρ cap} {perm : Equiv.Perm (Fin cap)} : Life.Step s (.sort perm) (s.sorted perm)

/-- What the history says of the handles. -/
structure Life.Identified (s : Life ρ cap) : Prop where
  nodup : s.issued.Nodup
  nonzero : 0#64 ∉ s.issued
  passes : ∀ k h, s.issued[k]? = some h → (s.pool.Passes h ↔ s.occupant (handleSlot h) = some k)
  occupant : ∀ slot k, s.occupant slot = some k → ∃ h, s.issued[k]? = some h ∧ handleSlot h = slot

/-! ## The condition -/

/-- The low 31 bits of a generation. -/
def low (g : BitVec 32) : Nat := (g &&& 2147483647#32).toNat

/-- The call is none of the three: the handle `0` is used after slot `0` got a generation, an insert
evicts no row of the last generation, and a sort meets no generation but the first. A delete has a cell
of the free list to store to. -/
def Life.Keeps (s : Life ρ cap) : LifeOp ρ cap → Prop
  | .insert _ ev => s.pool.freeCount ≤ 1 → s.pool.count = cap → ∀ g, s.pool.gen ev = some g →
      low g ≠ 2147483647
  | .delete h => (h = 0#64 → s.pool.gen 0 ≠ some 0#32) ∧ s.pool.freeCount < cap
  | .cell h => h = 0#64 → s.pool.gen 0 ≠ some 0#32
  | .mint _ => True
  | .sort _ => ∀ slot g, s.pool.gen slot = some g → g = 0#32

/-! ## The invariant -/

/-- The generation `g` was issued for a slot that has the generation `now`. -/
def Older (g now : BitVec 32) : Prop :=
  if dead now then low g < low now else low g ≤ low now

/-- What a run keeps. The free list holds dead rows only, each once; a slot that was never used has
generation `0`; an issued handle has a generation of its slot, the present one if its row is there. -/
structure Life.Sound (s : Life ρ cap) : Prop where
  count : 0 ≤ s.pool.count ∧ s.pool.count ≤ cap
  free : 0 ≤ s.pool.freeCount ∧ s.pool.freeCount ≤ cap
  distinct : s.pool.freeSlots.Nodup
  stack : ∀ t ∈ s.pool.freeSlots, 0 ≤ t ∧ t < s.pool.count ∧ s.pool.DeadAt t
  fresh : ∀ t, s.pool.count ≤ t → t < cap → s.pool.gen t = some 0#32
  bumped : ∀ t g, s.pool.gen t = some g → dead g = true → 0 < low g
  held : ∀ h ∈ s.held, handleSlot h < s.pool.count ∧ dead (handleGen h) = false
  nodup : s.issued.Nodup
  issued : ∀ k h, s.issued[k]? = some h → handleSlot h < s.pool.count ∧
    dead (handleGen h) = false ∧ handleGen h ≠ 0#32 ∧
    ∃ now, s.pool.gen (handleSlot h) = some now ∧ Older (handleGen h) now ∧
      (handleGen h = now ↔ s.occupant (handleSlot h) = some k)
  occupant : ∀ slot k, s.occupant slot = some k → ∃ h, s.issued[k]? = some h ∧ handleSlot h = slot

namespace HandleLemmas

theorem handleSlot_nonneg (h : BitVec 64) : 0 ≤ handleSlot h := Int.natCast_nonneg _

theorem low_of_alive {g : BitVec 32} (h : dead g = false) : low g = g.toNat := by
  have hlt : g.toNat < 2147483648 := by
    simp only [dead, BitVec.msb_eq_decide, decide_eq_false_iff_not] at h
    omega
  have hmask : (2147483647 : Nat) = 2 ^ 31 - 1 := by decide
  rw [low, BitVec.toNat_and]
  show g.toNat &&& 2147483647 = g.toNat
  rw [hmask, Nat.and_two_pow_sub_one_eq_mod]
  exact Nat.mod_eq_of_lt hlt

theorem low_eq_mod (g : BitVec 32) : low g = g.toNat % 2 ^ 31 := by
  have hmask : (2147483647 : Nat) = 2 ^ 31 - 1 := by decide
  rw [low, BitVec.toNat_and]
  show g.toNat &&& 2147483647 = g.toNat % 2 ^ 31
  rw [hmask, Nat.and_two_pow_sub_one_eq_mod]

theorem low_masked (g : BitVec 32) : (g &&& 2147483647#32).toNat = low g := rfl

/-- A bump that does not wrap. -/
theorem low_succ {g : BitVec 32} (h : low g ≠ 2147483647) : low (g + 1#32) = low g + 1 := by
  rw [low_eq_mod] at h ⊢
  rw [low_eq_mod, BitVec.toNat_add]
  show (g.toNat + 1) % 2 ^ 32 % 2 ^ 31 = g.toNat % 2 ^ 31 + 1
  omega

theorem low_freed {g : BitVec 32} (h : low g ≠ 2147483647) :
    low ((g + 1#32) ||| 2147483648#32) = low g + 1 := by
  rw [← low_succ h, low, low]
  congr 1
  ext i hi
  have hmask : (2147483648#32 &&& 2147483647#32) = 0#32 := by decide
  have hbit : ((2147483648#32 &&& 2147483647#32)[i]) = false := by rw [hmask]; simp
  rw [BitVec.getElem_and] at hbit
  simp only [BitVec.getElem_and, BitVec.getElem_or, Bool.and_or_distrib_right, hbit, Bool.or_false]

/-- The generation a row is issued with. -/
theorem low_nextGen (g : BitVec 32) (wasEvict : Bool) (h : wasEvict = true → low g ≠ 2147483647) :
    low (nextGen g wasEvict) = max 1 (if wasEvict then low g + 1 else low g) := by
  have hnext (g : BitVec 32) :
      low (if g &&& 2147483647#32 = 0#32 then 1#32 else g &&& 2147483647#32) = max 1 (low g) := by
    split
    · next hzero =>
      rw [low, low, hzero]
      decide
    · next hne =>
      have hpos : low g ≠ 0 := fun h0 => hne (BitVec.eq_of_toNat_eq h0)
      rw [low_of_alive (dead_masked g), low_masked]
      omega
  unfold nextGen
  cases wasEvict with
  | true =>
    simp only [if_true]
    rw [hnext, low_succ (h rfl)]
  | false => exact hnext g

/-! ## One insert -/

/-- An insert that succeeds, at `slot`: the generation of the slot goes up, or is given for the first
time. -/
structure Placed (s : Life ρ cap) (o : Outcome ρ cap) (slot : Int) (now next : BitVec 32) : Prop where
  outcome : o.slot = some slot ∧ o.handle = packHandle slot next
  bounds : 0 ≤ slot ∧ slot < o.pool.count ∧ o.pool.count ≤ cap ∧ s.pool.count ≤ o.pool.count
  free : 0 ≤ o.pool.freeCount ∧ o.pool.freeCount ≤ cap
  distinct : o.pool.freeSlots.Nodup
  stack : ∀ t ∈ o.pool.freeSlots, t ∈ s.pool.freeSlots ∧ t ≠ slot
  before : s.pool.gen slot = some now
  after : o.pool.gen slot = some next
  alive : dead next = false ∧ next ≠ 0#32
  newer : ∀ g, Older g now → (s.pool.count ≤ slot → low g = 0) → g ≠ 0#32 → dead g = false →
    low g < low next
  others : ∀ t, t ≠ slot → o.pool.gen t = s.pool.gen t

theorem nextGen_ne_zero (g : BitVec 32) (wasEvict : Bool) : nextGen g wasEvict ≠ 0#32 := by
  unfold nextGen
  dsimp only
  generalize (if wasEvict = true then g + 1#32 else g) = genDead
  split
  · decide
  · next h => exact h

theorem freeSlots_eq_nil {p : Pool ρ cap} (h : p.freeCount ≤ 1) : p.freeSlots = [] := by
  unfold Pool.freeSlots
  apply List.drop_eq_nil_of_le
  rw [List.length_take]
  omega

theorem low_pos {g : BitVec 32} (hne : g ≠ 0#32) (halive : dead g = false) : 0 < low g := by
  rw [low_of_alive halive]
  exact Nat.pos_of_ne_zero fun h0 => hne (BitVec.eq_of_toNat_eq h0)

theorem insert_cases {s : Life ρ cap} (hs : s.Sound) {row : ρ} {ev : Int} {o : Outcome ρ cap}
    (hev : ev = -1 ∨ (0 ≤ ev ∧ ev < cap)) (hkeep : s.Keeps (.insert row ev))
    (hins : archeInsert s.pool row ev = some o) :
    (o.slot = none ∧ o.handle = 0#64 ∧ o.pool = s.pool ∧ s.pool.count = cap) ∨
      ∃ slot now next, Placed s o slot now next := by
  obtain ⟨hc0, hcle⟩ := hs.count
  obtain ⟨hf0, hfle⟩ := hs.free
  by_cases hpop : s.pool.freeCount > 1
  · -- the slot is taken from the free list, and is dead
    right
    obtain ⟨slot, hload, hsplit⟩ := freeSlots_pop hpop hfle
    have hmem : slot ∈ s.pool.freeSlots := by
      rw [hsplit]
      exact List.mem_append_right _ List.mem_cons_self
    obtain ⟨h0, h1, now, hnow, hdead⟩ := hs.stack slot hmem
    have hc : chooseSlot s.pool ev = some (some ⟨{ s.pool with freeCount := s.pool.freeCount - 1 },
        slot, false, false, [s.pool.freeCount - 1]⟩) := by
      rw [chooseSlot, if_pos hpop]
      simp only [hload]
    obtain ⟨g, q, hq, hqc, hqf, hqs, hg, hqg, hqo⟩ := insert_writes row hc h0 (by dsimp only; omega)
    cases hins.symm.trans hq
    have hnd := hs.distinct
    rw [hsplit, List.nodup_append] at hnd
    have hsame : g = now := Option.some.inj (hg.symm.trans hnow)
    subst hsame
    refine ⟨slot, g, nextGen g false, ⟨⟨rfl, rfl⟩, ⟨h0, ?_, ?_, ?_⟩, ?_, ?_, ?_, hnow, hqg,
      ⟨dead_nextGen g false, nextGen_ne_zero g false⟩, ?_, hqo⟩⟩
    · exact hqc ▸ h1
    · exact hqc ▸ hcle
    · exact hqc ▸ le_refl _
    · have hqf' : q.freeCount = s.pool.freeCount - 1 := hqf
      show 0 ≤ q.freeCount ∧ q.freeCount ≤ cap
      omega
    · exact hqs ▸ hnd.1
    · intro t ht
      have ht' : t ∈ ({ s.pool with freeCount := s.pool.freeCount - 1 } : Pool ρ cap).freeSlots :=
        hqs ▸ ht
      refine ⟨hsplit ▸ List.mem_append_left _ ht', fun heq => ?_⟩
      exact hnd.2.2 t ht' slot List.mem_cons_self heq
    · intro g' hold _ _ _
      rw [low_nextGen g false (by simp)]
      rw [Older, if_pos hdead] at hold
      exact lt_of_lt_of_le hold (le_max_right _ _)
  · have hempty : s.pool.freeSlots = [] := freeSlots_eq_nil (by omega)
    by_cases hfull : s.pool.count ≥ cap
    · by_cases hevict : ev ≥ 0
      · -- the row of the victim is overwritten
        right
        have hlt : ev < cap := by omega
        have hc : chooseSlot s.pool ev = some (some ⟨s.pool, ev, false, true, []⟩) := by
          rw [chooseSlot, if_neg hpop, if_pos hfull, if_pos hevict]
        obtain ⟨g, q, hq, hqc, hqf, hqs, hg, hqg, hqo⟩ := insert_writes row hc hevict hlt
        cases hins.symm.trans hq
        have hmax : low g ≠ 2147483647 := hkeep (by omega) (by omega) g hg
        refine ⟨ev, g, nextGen g true, ⟨⟨rfl, rfl⟩, ⟨hevict, ?_, ?_, ?_⟩, ?_, ?_, ?_, hg, hqg,
          ⟨dead_nextGen g true, nextGen_ne_zero g true⟩, ?_, hqo⟩⟩
        · have hqc' : q.count = s.pool.count := hqc
          show ev < q.count
          omega
        · exact hqc ▸ hcle
        · exact hqc ▸ le_refl _
        · exact hqf ▸ ⟨hf0, hfle⟩
        · exact hqs ▸ hs.distinct
        · intro t ht
          have ht' : t ∈ s.pool.freeSlots := hqs ▸ ht
          rw [hempty] at ht'
          cases ht'
        · intro g' hold _ _ _
          have hle : low g' ≤ low g := by
            rw [Older] at hold
            split at hold
            · exact le_of_lt hold
            · exact hold
          rw [low_nextGen g true fun _ => hmax, if_pos rfl]
          exact lt_of_lt_of_le (Nat.lt_succ_of_le hle) (le_max_right _ _)
      · left
        have hc : chooseSlot s.pool ev = some none := by
          rw [chooseSlot, if_neg hpop, if_pos hfull, if_neg hevict]
        have hfail : archeInsert s.pool row ev = some ⟨s.pool, 0#64, false, none, false, [], false⟩ := by
          rw [archeInsert, hc]
        cases hins.symm.trans hfail
        exact ⟨rfl, rfl, rfl, by omega⟩
    · -- a slot that was never used
      right
      have hlt : s.pool.count < cap := by omega
      have hc : chooseSlot s.pool ev = some (some ⟨s.pool, s.pool.count, true, false, []⟩) := by
        rw [chooseSlot, if_neg hpop, if_neg hfull]
      obtain ⟨g, q, hq, hqc, hqf, hqs, hg, hqg, hqo⟩ := insert_writes row hc hc0 hlt
      cases hins.symm.trans hq
      have hqc' : q.count = s.pool.count + 1 := hqc
      refine ⟨s.pool.count, g, nextGen g false, ⟨⟨rfl, rfl⟩, ⟨hc0, ?_, ?_, ?_⟩, ?_, ?_, ?_, hg, hqg,
        ⟨dead_nextGen g false, nextGen_ne_zero g false⟩, ?_, hqo⟩⟩
      · show s.pool.count < q.count
        omega
      · show q.count ≤ cap
        omega
      · show s.pool.count ≤ q.count
        omega
      · exact hqf ▸ ⟨hf0, hfle⟩
      · exact hqs ▸ hs.distinct
      · intro t ht
        have ht' : t ∈ s.pool.freeSlots := hqs ▸ ht
        rw [hempty] at ht'
        cases ht'
      · intro g' _ hzero hne halive
        exact absurd (hzero (le_refl _)) (Nat.pos_iff_ne_zero.mp (low_pos hne halive))

theorem older_of_lt {g now : BitVec 32} (h : low g < low now) : Older g now := by
  rw [Older]
  split
  · exact h
  · exact le_of_lt h

theorem insert_sound {s : Life ρ cap} (hs : s.Sound) (hcap : 1 ≤ cap) (hword : cap < 2 ^ 31) {row : ρ}
    {ev : Int} {o : Outcome ρ cap} (hev : ev = -1 ∨ (0 ≤ ev ∧ ev < cap))
    (hkeep : s.Keeps (.insert row ev)) (hins : archeInsert s.pool row ev = some o) :
    (s.inserted o).Sound := by
  rcases insert_cases hs hev hkeep hins with ⟨hslot, hhandle, hpool, hcount⟩ | ⟨slot, now, next, hp⟩
  · have heq : s.inserted o = { s with held := 0#64 :: s.held } := by
      rw [Life.inserted, hslot, hhandle, hpool]
    rw [heq]
    refine { hs with held := ?_ }
    intro h hh
    rcases List.mem_cons.mp hh with rfl | hh
    · refine ⟨?_, by decide⟩
      show handleSlot 0#64 < s.pool.count
      have hzero : handleSlot 0#64 = 0 := by decide
      omega
    · exact hs.held h hh
  · obtain ⟨hslot, hhandle⟩ := hp.outcome
    obtain ⟨h0, h1, h2, hgrow⟩ := hp.bounds
    have hpackSlot : handleSlot o.handle = slot := by
      rw [hhandle]
      exact handleSlot_pack h0 (by omega) next
    have hpackGen : handleGen o.handle = next := by rw [hhandle, handleGen_pack]
    have heq : s.inserted o = ⟨o.pool, s.issued ++ [o.handle],
        Function.update s.occupant slot (some s.issued.length), o.handle :: s.held⟩ := by
      rw [Life.inserted, hslot]
    rw [heq]
    -- a handle of the slot that was issued before has a smaller generation
    have hless {k : Nat} {h : BitVec 64} (hk : s.issued[k]? = some h) (hat : handleSlot h = slot) :
        low (handleGen h) < low next := by
      obtain ⟨hlt, halive, hne, now', hnow', hold, -⟩ := hs.issued k h hk
      rw [hat] at hnow' hlt
      have hsame : now' = now := Option.some.inj (hnow'.symm.trans hp.before)
      subst hsame
      exact hp.newer _ hold (fun hge => absurd hlt (by omega)) hne halive
    refine ⟨⟨le_trans h0 (le_of_lt h1), h2⟩, hp.free, hp.distinct, ?_, ?_, ?_, ?_, ?_, ?_, ?_⟩
    · intro t ht
      obtain ⟨hold, hne⟩ := hp.stack t ht
      obtain ⟨ht0, ht1, hdead⟩ := hs.stack t hold
      exact ⟨ht0, lt_of_lt_of_le ht1 hgrow, (deadAt_congr (hp.others t hne)).mpr hdead⟩
    · intro t ht htc
      have ht' : o.pool.count ≤ t := ht
      have hne : t ≠ slot := by omega
      exact (hp.others t hne).trans (hs.fresh t (by omega) htc)
    · intro t g hg hdead
      by_cases hne : t = slot
      · subst hne
        cases hp.after.symm.trans hg
        rw [hp.alive.1] at hdead
        cases hdead
      · exact hs.bumped t g ((hp.others t hne).symm.trans hg) hdead
    · intro h hh
      rcases List.mem_cons.mp hh with rfl | hh
      · rw [hpackSlot, hpackGen]
        exact ⟨h1, hp.alive.1⟩
      · obtain ⟨hlt, halive⟩ := hs.held h hh
        exact ⟨lt_of_lt_of_le hlt hgrow, halive⟩
    · refine List.nodup_append.mpr ⟨hs.nodup, List.nodup_singleton _, fun a ha b hb heq => ?_⟩
      rw [List.mem_singleton.mp hb] at heq
      obtain ⟨k, hk⟩ := List.getElem?_of_mem ha
      have hlt : low (handleGen a) < low next := hless hk (heq ▸ hpackSlot)
      rw [heq, hpackGen] at hlt
      exact lt_irrefl _ hlt
    · intro k h hk
      rw [List.getElem?_append] at hk
      split at hk
      · next hlt =>
        obtain ⟨hcnt, halive, hne, now', hnow', hold, hiff⟩ := hs.issued k h hk
        refine ⟨lt_of_lt_of_le hcnt hgrow, halive, hne, ?_⟩
        by_cases hat : handleSlot h = slot
        · refine ⟨next, hat ▸ hp.after, older_of_lt (hless hk hat), ?_⟩
          show _ ↔ Function.update s.occupant slot (some s.issued.length) (handleSlot h) = some k
          rw [hat, Function.update_self]
          constructor
          · intro hgen
            have := hless hk hat
            rw [hgen] at this
            exact absurd this (lt_irrefl _)
          · intro hk'
            cases hk'
            exact absurd hlt (lt_irrefl _)
        · refine ⟨now', (hp.others _ hat).trans hnow', hold, ?_⟩
          show _ ↔ Function.update s.occupant slot (some s.issued.length) (handleSlot h) = some k
          rw [Function.update_of_ne hat]
          exact hiff
      · next hge =>
        obtain ⟨hk0, rfl⟩ : k - s.issued.length = 0 ∧ o.handle = h := by
          rcases hj : k - s.issued.length with _ | j
          · rw [hj] at hk
            exact ⟨rfl, by simpa using hk⟩
          · rw [hj] at hk
            simp at hk
        have hklen : k = s.issued.length := by omega
        refine ⟨hpackSlot ▸ h1, hpackGen ▸ hp.alive.1, hpackGen ▸ hp.alive.2, next, hpackSlot ▸ hp.after,
          ?_, ?_⟩
        · rw [hpackGen, Older, if_neg (by rw [hp.alive.1]; decide)]
        · show _ ↔ Function.update s.occupant slot (some s.issued.length) (handleSlot o.handle) = some k
          rw [hpackSlot, Function.update_self, hklen]
          exact ⟨fun _ => rfl, fun _ => hpackGen⟩
    · intro t k hk
      change Function.update s.occupant slot (some s.issued.length) t = some k at hk
      by_cases hne : t = slot
      · subst hne
        rw [Function.update_self] at hk
        cases hk
        refine ⟨o.handle, ?_, hpackSlot⟩
        show (s.issued ++ [o.handle])[s.issued.length]? = some o.handle
        rw [List.getElem?_append_right (le_refl _), Nat.sub_self]
        rfl
      · rw [Function.update_of_ne hne] at hk
        obtain ⟨h, hk', hat⟩ := hs.occupant t k hk
        refine ⟨h, ?_, hat⟩
        show (s.issued ++ [o.handle])[k]? = some h
        rw [List.getElem?_append_left (List.getElem?_eq_some_iff.mp hk').1]
        exact hk'

/-! ## One delete -/

/-- A delete that frees the row of the handle. -/
structure Freed (s : Life ρ cap) (o : Outcome ρ cap) (h : BitVec 64) : Prop where
  slot : o.slot = some (handleSlot h)
  passes : s.pool.Passes h
  count : o.pool.count = s.pool.count
  free : 0 ≤ o.pool.freeCount ∧ o.pool.freeCount ≤ cap
  stack : o.pool.freeSlots = [] ∨ o.pool.freeSlots = s.pool.freeSlots ++ [handleSlot h]
  after : ∃ g, o.pool.gen (handleSlot h) = some g ∧ dead g = true ∧ low g = low (handleGen h) + 1
  others : ∀ t, t ≠ handleSlot h → o.pool.gen t = s.pool.gen t

theorem storeFree_cell {p : Pool ρ cap} {slot : Int} (h0 : 0 ≤ p.freeCount) (h1 : p.freeCount < cap) :
    p.storeFree p.freeCount slot =
      some { p with freeList := p.freeList.setIfInBounds p.freeCount.toNat slot } := by
  rw [Pool.storeFree, if_neg (by omega), if_neg (by omega), if_pos ⟨h0, h1⟩]

theorem delete_cases {s : Life ρ cap} (hs : s.Sound) {h : BitVec 64} {o : Outcome ρ cap}
    (hheld : h ∈ s.held) (hkeep : s.Keeps (.delete h)) (hdel : archeDelete s.pool h = some o)
    (hab : o.aborted = false) : (o.slot = none ∧ o.pool = s.pool) ∨ Freed s o h := by
  obtain ⟨hlt, halive⟩ := hs.held h hheld
  have h0 := handleSlot_nonneg h
  have h1 : handleSlot h < cap := lt_of_lt_of_le hlt hs.count.2
  obtain ⟨g, hg⟩ := gen_eq_some (p := s.pool) h0 h1
  unfold archeDelete at hdel
  simp only [hg] at hdel
  split at hdel
  · cases hdel
    cases hab
  · next hgen =>
    have hgen : handleGen h = g := not_not.mp hgen
    split at hdel
    · cases hdel
      exact .inl ⟨rfl, rfl⟩
    · next hmax =>
      right
      have hlow : low g ≠ 2147483647 := by
        rw [← hgen, low_of_alive halive, hgen]
        exact fun hn => hmax (BitVec.eq_of_toNat_eq hn)
      obtain ⟨hf0, -⟩ := hs.free
      have hroom : s.pool.freeCount < cap := hkeep.2
      let p1 : Pool ρ cap := s.pool.setGen (handleSlot h) ((g + 1#32) ||| 2147483648#32)
      have hstore : p1.storeFree p1.freeCount (handleSlot h) = some
          { p1 with freeList := p1.freeList.setIfInBounds p1.freeCount.toNat (handleSlot h) } :=
        storeFree_cell hf0 hroom
      rw [hstore] at hdel
      cases hdel
      refine ⟨rfl, hg.trans (congrArg some hgen.symm), rfl, ?_, ?_, ?_, ?_⟩
      · show 0 ≤ s.pool.freeCount + 1 ∧ s.pool.freeCount + 1 ≤ cap
        omega
      · by_cases hzero : s.pool.freeCount = 0
        · -- the cell below the stack, where no insert looks
          left
          refine freeSlots_eq_nil ?_
          show s.pool.freeCount + 1 ≤ 1
          omega
        · right
          obtain ⟨q, hq, -, -, hpush⟩ := freeSlots_push (p := p1) (handleSlot h)
            (show 1 ≤ s.pool.freeCount by omega) hroom
          cases hstore.symm.trans hq
          exact hpush
      · refine ⟨_, gen_setGen_self h0 h1, dead_freed g, ?_⟩
        rw [low_freed hlow, hgen]
      · intro t ht
        exact gen_setGen_other ht h0

theorem delete_sound {s : Life ρ cap} (hs : s.Sound) {h : BitVec 64} {o : Outcome ρ cap}
    (hheld : h ∈ s.held) (hkeep : s.Keeps (.delete h)) (hdel : archeDelete s.pool h = some o)
    (hab : o.aborted = false) : (s.deleted o).Sound := by
  rcases delete_cases hs hheld hkeep hdel hab with ⟨hslot, hpool⟩ | hf
  · have heq : s.deleted o = s := by rw [Life.deleted, hslot, hpool]
    rw [heq]
    exact hs
  · have heq : s.deleted o =
        ⟨o.pool, s.issued, Function.update s.occupant (handleSlot h) none, s.held⟩ := by
      rw [Life.deleted, hf.slot]
    obtain ⟨hlt, halive⟩ := hs.held h hheld
    obtain ⟨g, hg, hdead, hlow⟩ := hf.after
    have hlive : ¬ s.pool.DeadAt (handleSlot h) := by
      rw [deadAt_iff hf.passes, halive]
      decide
    have hnew : handleSlot h ∉ s.pool.freeSlots := fun hmem => hlive (hs.stack _ hmem).2.2
    rw [heq]
    refine ⟨hf.count ▸ hs.count, hf.free, ?_, ?_, ?_, ?_, ?_, hs.nodup, ?_, ?_⟩
    · rcases hf.stack with hnil | hpush
      · exact hnil ▸ List.nodup_nil
      · show o.pool.freeSlots.Nodup
        rw [hpush, List.nodup_append]
        refine ⟨hs.distinct, List.nodup_singleton _, fun a ha b hb heq => hnew ?_⟩
        rw [← List.mem_singleton.mp hb, ← heq]
        exact ha
    · intro t ht
      show 0 ≤ t ∧ t < o.pool.count ∧ o.pool.DeadAt t
      rw [hf.count]
      rcases hf.stack with hnil | hpush
      · rw [show o.pool.freeSlots = [] from hnil] at ht
        cases ht
      · rw [show o.pool.freeSlots = _ from hpush] at ht
        rcases List.mem_append.mp ht with ht | ht
        · obtain ⟨ht0, ht1, htd⟩ := hs.stack t ht
          have hne : t ≠ handleSlot h := fun heq => hnew (heq ▸ ht)
          exact ⟨ht0, ht1, (deadAt_congr (hf.others t hne)).mpr htd⟩
        · rw [List.mem_singleton.mp ht]
          exact ⟨handleSlot_nonneg h, hlt, g, hg, hdead⟩
    · intro t ht htc
      have ht' : s.pool.count ≤ t := hf.count ▸ ht
      have hne : t ≠ handleSlot h := by omega
      exact (hf.others t hne).trans (hs.fresh t ht' htc)
    · intro t g' hg' hd
      by_cases hne : t = handleSlot h
      · subst hne
        cases hg.symm.trans hg'
        rw [hlow]
        exact Nat.succ_pos _
      · exact hs.bumped t g' ((hf.others t hne).symm.trans hg') hd
    · intro h' hh'
      exact hf.count ▸ hs.held h' hh'
    · intro k h' hk
      obtain ⟨hcnt, halive', hne', now, hnow, hold, hiff⟩ := hs.issued k h' hk
      refine ⟨hf.count ▸ hcnt, halive', hne', ?_⟩
      by_cases hat : handleSlot h' = handleSlot h
      · -- the slot is dead now, with a generation that was not issued
        have hnow' : now = handleGen h := by
          rw [hat] at hnow
          exact Option.some.inj (hnow.symm.trans hf.passes)
        rw [hnow', Older, if_neg (by rw [halive]; decide)] at hold
        refine ⟨g, hat ▸ hg, older_of_lt (hlow ▸ Nat.lt_succ_of_le hold), ?_⟩
        show _ ↔ Function.update s.occupant (handleSlot h) none (handleSlot h') = some k
        rw [hat, Function.update_self]
        constructor
        · intro hgen
          rw [hgen, hdead] at halive'
          cases halive'
        · intro hk'
          cases hk'
      · refine ⟨now, (hf.others _ hat).trans hnow, hold, ?_⟩
        show _ ↔ Function.update s.occupant (handleSlot h) none (handleSlot h') = some k
        rw [Function.update_of_ne hat]
        exact hiff
    · intro t k hk
      change Function.update s.occupant (handleSlot h) none t = some k at hk
      by_cases hne : t = handleSlot h
      · rw [hne, Function.update_self] at hk
        cases hk
      · rw [Function.update_of_ne hne] at hk
        exact hs.occupant t k hk

/-! ## The other calls -/

theorem mint_sound {s : Life ρ cap} (hs : s.Sound) (hword : cap < 2 ^ 31) {slot : Int} {g : BitVec 32}
    (h0 : 0 ≤ slot) (h1 : slot < s.pool.count) (hg : dead g = false) :
    Life.Sound { s with held := packHandle slot g :: s.held } := by
  refine { hs with held := ?_ }
  intro h hh
  rcases List.mem_cons.mp hh with rfl | hh
  · have hcap := hs.count.2
    rw [handleSlot_pack h0 (by omega) g, handleGen_pack]
    exact ⟨h1, hg⟩
  · exact hs.held h hh

/-- A sort of rows whose generations are all the first one. -/
theorem sort_sound {s : Life ρ cap} (hs : s.Sound) {perm : Equiv.Perm (Fin cap)}
    (hkeep : s.Keeps (.sort perm)) : (s.sorted perm).Sound := by
  have hnot : ∀ t, ¬ s.pool.DeadAt t := by
    rintro t ⟨g, hg, hdead⟩
    rw [hkeep t g hg] at hdead
    cases hdead
  have hnone : s.issued = [] := by
    refine List.eq_nil_iff_forall_not_mem.mpr fun h hh => ?_
    obtain ⟨k, hk⟩ := List.getElem?_of_mem hh
    obtain ⟨-, halive, hne, now, hnow, hold, -⟩ := hs.issued k h hk
    rw [hkeep _ now hnow, Older, if_neg (by decide)] at hold
    exact absurd hold (Nat.not_le_of_lt (low_pos hne halive))
  have hempty : ∀ t, s.occupant t = none := by
    intro t
    rw [Option.eq_none_iff_forall_ne_some]
    intro k hk
    obtain ⟨h, hk', -⟩ := hs.occupant t k hk
    rw [hnone] at hk'
    cases hk'
  have hlive : (s.pool.live : Int) = s.pool.count := by
    have hall : (List.range s.pool.count.toNat).filter (fun i => !s.pool.deadRow i) =
        List.range s.pool.count.toNat := by
      refine List.filter_eq_self.mpr fun i _ => ?_
      rw [Bool.not_eq_true', Bool.eq_false_iff]
      exact fun hd => hnot i ((CapacityLemmas.deadRow_iff s.pool i).mp hd)
    rw [Pool.live, hall, List.length_range]
    exact Int.toNat_of_nonneg hs.count.1
  have hgens : ∀ t, (s.sorted perm).pool.gen t = s.pool.gen t := by
    intro t
    show (s.pool.sortTrim _).gen t = s.pool.gen t
    rw [CapacityLemmas.gen_sortTrim]
    cases hg : s.pool.gen t with
    | none => exact ite_self none
    | some g =>
      rw [hkeep t g hg]
      simp
  have hcount : (s.sorted perm).pool.count = s.pool.count := hlive
  have hslots : (s.sorted perm).pool.freeSlots = [] := freeSlots_eq_nil (show (0 : Int) ≤ 1 by decide)
  refine ⟨hcount ▸ hs.count, ⟨le_refl _, Int.natCast_nonneg _⟩, ?_, ?_, ?_, ?_, ?_, hs.nodup, ?_, ?_⟩
  · rw [hslots]
    exact List.nodup_nil
  · rw [hslots]
    intro t ht
    cases ht
  · intro t ht htc
    rw [hcount] at ht
    rw [hgens]
    exact hs.fresh t ht htc
  · intro t g hg hdead
    exact absurd ⟨g, (hgens t).symm.trans hg, hdead⟩ (hnot t)
  · intro h hh
    rw [hcount]
    exact hs.held h hh
  · intro k h hk
    have hk' : s.issued[k]? = some h := hk
    rw [hnone] at hk'
    cases hk'
  · intro t k hk
    have hk' : movedTo s.occupant perm t = some k := hk
    unfold movedTo at hk'
    split at hk'
    · rw [hempty] at hk'
      cases hk'
    · cases hk'

theorem start_sound (zero : ρ) {length : Int} (hcap : 1 ≤ cap) (h0 : 0 ≤ length) (h1 : length ≤ cap) :
    (Life.start cap zero length).Sound := by
  have hgen : ∀ t g, (allocInit cap zero length).gen t = some g → g = 0#32 := by
    intro t g hg
    unfold Pool.gen at hg
    split at hg
    · obtain ⟨_, hg⟩ := Vector.getElem?_eq_some_iff.mp hg
      simpa [allocInit] using hg.symm
    · cases hg
  have hslots : (allocInit cap zero length).freeSlots = [] := freeSlots_eq_nil (le_refl (1 : Int))
  refine ⟨⟨h0, h1⟩, ⟨show (0 : Int) ≤ 1 by decide, show (1 : Int) ≤ cap by omega⟩, ?_, ?_, ?_, ?_, ?_,
    List.nodup_nil, ?_, ?_⟩
  · show (allocInit cap zero length).freeSlots.Nodup
    rw [hslots]
    exact List.nodup_nil
  · intro t ht
    rw [show (Life.start cap zero length).pool.freeSlots = [] from hslots] at ht
    cases ht
  · intro t ht htc
    have ht0 : 0 ≤ t := le_trans h0 ht
    obtain ⟨g, hg⟩ := gen_eq_some (p := allocInit cap zero length) ht0 htc
    exact hgen t g hg ▸ hg
  · intro t g hg hdead
    rw [hgen t g hg] at hdead
    cases hdead
  · intro h hh
    cases hh
  · intro k h hk
    cases hk
  · intro t k hk
    cases hk

theorem step_sound {s t : Life ρ cap} {op : LifeOp ρ cap} (hs : s.Sound) (hcap : 1 ≤ cap)
    (hword : cap < 2 ^ 31) (h : Guarded Life.Step Life.Keeps s op t) : t.Sound := by
  obtain ⟨hstep, hkeep⟩ := h
  cases hstep with
  | insert hev hins => exact insert_sound hs hcap hword hev hkeep hins
  | delete hheld hdel hab => exact delete_sound hs hheld hkeep hdel hab
  | cell => exact hs
  | mint h0 h1 _ hg => exact mint_sound hs hword h0 h1 hg
  | sort => exact sort_sound hs hkeep

theorem identified_of_sound {s : Life ρ cap} (hs : s.Sound) : s.Identified := by
  refine ⟨hs.nodup, fun hzero => ?_, fun k h hk => ?_, hs.occupant⟩
  · obtain ⟨k, hk⟩ := List.getElem?_of_mem hzero
    exact (hs.issued k 0#64 hk).2.2.1 (by decide)
  · obtain ⟨-, -, -, now, hnow, -, hiff⟩ := hs.issued k h hk
    rw [← hiff, Pool.Passes, hnow]
    exact ⟨fun heq => (Option.some.inj heq).symm, fun heq => congrArg some heq.symm⟩

/-- The handle `0` is refused, once slot `0` has a generation. -/
theorem zero_refused {s t : Life ρ cap} (hzero : s.pool.gen 0 ≠ some 0#32) :
    ¬ s.Step (.delete 0#64) t ∧ ¬ s.Step (.cell 0#64) t := by
  have hslot : handleSlot 0#64 = 0 := by decide
  have hgen : handleGen 0#64 = 0#32 := by decide
  constructor
  · rintro (_ | ⟨_, hdel, hab⟩)
    unfold archeDelete at hdel
    simp only [hslot] at hdel
    split at hdel
    · cases hdel
    · next g hg =>
      rw [if_pos (by rw [hgen]; exact fun heq => hzero (heq ▸ hg))] at hdel
      cases hdel
      cases hab
  · intro hstep
    cases hstep with
    | cell _ hpass =>
      rw [Pool.Passes, hslot, hgen] at hpass
      exact hzero hpass

end HandleLemmas

open HandleLemmas

/-- In a run whose calls meet the condition every handle is issued once and is accepted exactly while
the row it was issued for is there; the handle `0` is refused, and a delete of the last generation
reports `ok = 0`. -/
theorem handles_identify (hcap : 1 ≤ cap) (hword : cap < 2 ^ 31) (zero : ρ) (length : Int)
    (h0 : 0 ≤ length) (h1 : length ≤ cap) (ops : List (LifeOp ρ cap)) (s : Life ρ cap)
    (hrun : Run (Guarded Life.Step Life.Keeps) (Life.start cap zero length) ops s) :
    s.Identified ∧
      (∀ t, ¬ Guarded Life.Step Life.Keeps s (.delete 0#64) t ∧
        ¬ Guarded Life.Step Life.Keeps s (.cell 0#64) t) ∧
      ∀ h, s.pool.Passes h → handleGen h = 2147483647#32 →
        ∃ o, archeDelete s.pool h = some o ∧ o.ok = false ∧ o.aborted = false ∧ o.pool = s.pool := by
  have hs : s.Sound := Run.inv Life.Sound (start_sound zero hcap h0 h1)
    (fun a op b ha hstep => step_sound ha hcap hword hstep) hrun
  refine ⟨identified_of_sound hs, fun t => ⟨?_, ?_⟩, fun h hpass hmax => ?_⟩
  · rintro ⟨hstep, hkeep⟩
    exact (zero_refused (hkeep.1 rfl)).1 hstep
  · rintro ⟨hstep, hkeep⟩
    exact (zero_refused (hkeep rfl)).2 hstep
  · refine ⟨⟨s.pool, h, false, none, false, [], false⟩, ?_, rfl, rfl, rfl⟩
    unfold archeDelete
    simp only [show s.pool.gen (handleSlot h) = some (handleGen h) from hpass]
    rw [if_neg (not_not.mpr rfl), if_pos hmax]

/-- The pool `[2]P(0)` after one insert. -/
theorem handles_identify_first : ∃ s : Life Unit 2,
    Run (Guarded Life.Step Life.Keeps) (Life.start 2 () 0) [.insert () (-1)] s ∧
      s.issued = [4294967296#64] ∧ s.Identified := by
  have hins : archeInsert (allocInit 2 () 0) () (-1) =
      some ⟨⟨#v[(), ()], 1, #v[0, 0], 1, #v[1#32, 0#32]⟩, 4294967296#64, true, some 0, false, [],
        false⟩ := by
    rfl
  have hkeep : (Life.start 2 () 0).Keeps (.insert () (-1)) :=
    fun _ hfull => absurd hfull (by decide)
  have hstep : Guarded Life.Step Life.Keeps (Life.start 2 () 0) (.insert () (-1)) _ :=
    ⟨.insert (.inl rfl) hins, hkeep⟩
  have hrun := Run.nil.snoc hstep
  have hall := handles_identify (by decide) (by decide) () 0 (by decide) (by decide) _ _ hrun
  exact ⟨_, hrun, rfl, hall.1⟩

/-- The pool `[2]P(2)`: an insert fails and returns `0`, and a delete of `0` frees the first row. -/
theorem not_handles_identify :
    ¬ ∀ (ops : List (LifeOp Unit 2)) (s : Life Unit 2), Run Life.Step (Life.start 2 () 2) ops s →
      ∀ t, ¬ s.Step (.delete 0#64) t := by
  intro hall
  have hins : archeInsert (allocInit 2 () 2) () (-1) =
      some ⟨allocInit 2 () 2, 0#64, false, none, false, [], false⟩ := by
    rfl
  have hdel : archeDelete (allocInit 2 () 2) 0#64 =
      some ⟨⟨#v[(), ()], 2, #v[0, 0], 2, #v[2147483649#32, 0#32]⟩, 0#64, true, some 0, false, [1],
        false⟩ := by
    rfl
  have hrun := Run.nil.snoc (Life.Step.insert (s := Life.start 2 () 2) (.inl rfl) hins)
  exact hall _ _ hrun _ (.delete List.mem_cons_self hdel rfl)

end Arche.Codegen
