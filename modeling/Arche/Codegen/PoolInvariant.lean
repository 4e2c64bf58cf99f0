import Arche.Lib.Run
import Arche.Codegen.Pool
import Mathlib.Tactic.Common
import Mathlib.Data.List.Basic

/-!
# The representation invariant of a generated pool

The free slots of a pool are the stack `free_list[1 .. free_count-1]`. `Rep`
says that this stack holds exactly the dead rows, each once. The stack has
`cap` cells of which cell `0` is never used, so it has room for `cap - 1` free
rows only: the delete that frees the last live row stores behind the array.
-/

namespace Arche.Codegen

open Arche.Lib

variable {ρ : Type} {cap : Nat}

/-- The entries `free_list[1 .. free_count-1]`. -/
def Pool.freeSlots (p : Pool ρ cap) : List Int :=
  (p.freeList.toList.take p.freeCount.toNat).drop 1

/-- The generation of `slot` has the dead bit set. -/
def Pool.DeadAt (p : Pool ρ cap) (slot : Int) : Prop :=
  ∃ g, p.gen slot = some g ∧ dead g = true

/-- `slot` is a row below `count` that is not dead. -/
def Pool.LiveAt (p : Pool ρ cap) (slot : Int) : Prop :=
  0 ≤ slot ∧ slot < p.count ∧ ¬ p.DeadAt slot

/-- The free list is the set of dead rows below `count`, without repetition. -/
structure Rep (p : Pool ρ cap) : Prop where
  count_nonneg : 0 ≤ p.count
  count_le : p.count ≤ cap
  free_pos : 1 ≤ p.freeCount
  distinct : p.freeSlots.Nodup
  exactly : ∀ s, s ∈ p.freeSlots ↔ 0 ≤ s ∧ s < p.count ∧ p.DeadAt s

/-- A pool in use, with the handles its inserts returned so far. -/
structure Sys (ρ : Type) (cap : Nat) where
  pool : Pool ρ cap
  issued : List (BitVec 64)

/-- The calls a program can make: an eviction victim is `-1` or a slot, a delete
gets a handle that an earlier insert returned. -/
def Sys.Admits (s : Sys ρ cap) : Op ρ → Prop
  | .insert _ evictSlot => evictSlot = -1 ∨ (0 ≤ evictSlot ∧ evictSlot < cap)
  | .delete handle => handle ∈ s.issued

/-- The state after a call. An insert's handle joins the issued ones. -/
def Sys.after (s : Sys ρ cap) (op : Op ρ) (o : Outcome ρ cap) : Sys ρ cap :=
  match op with
  | .insert _ _ => ⟨o.pool, o.handle :: s.issued⟩
  | .delete _ => ⟨o.pool, s.issued⟩

/-- One call that returns. A call that aborts has no successor. -/
def Sys.Step (s : Sys ρ cap) (op : Op ρ) (t : Sys ρ cap) : Prop :=
  s.Admits op ∧ ∃ o, exec s.pool op = some o ∧ o.aborted = false ∧ t = s.after op o

/-- What one call owes: it stays inside the struct, touches only cells of
`free_list`, and a successful insert that does not evict returns a slot of the
pool that was not live. -/
def CallOk (p : Pool ρ cap) (op : Op ρ) : Prop :=
  ∃ o, exec p op = some o ∧ (∀ i ∈ o.freeIdx, 0 ≤ i ∧ i < cap) ∧
    (∀ row ev, op = .insert row ev → o.ok = true → o.evict = false →
      ∃ slot, o.slot = some slot ∧ 0 ≤ slot ∧ slot < cap ∧ ¬ p.LiveAt slot ∧
        handleSlot o.handle = slot)

/-- The state of a pool declared `[cap]P(length)`. -/
def Sys.start (cap : Nat) (zero : ρ) (length : Int) : Sys ρ cap := ⟨allocInit cap zero length, []⟩

/-- The call does not free a row while the stack is full. -/
def SpareCell (s : Sys ρ cap) : Op ρ → Prop
  | .insert _ _ => True
  | .delete handle =>
    s.pool.gen (handleSlot handle) = some (handleGen handle) →
      handleGen handle ≠ 2147483647#32 → s.pool.freeCount < cap

/-- What keeps `Rep` going from call to call: the stack fits its array, rows that were
never handed out are not dead, and an issued handle names a row below `count` with a
generation that is not dead. -/
structure Good (s : Sys ρ cap) : Prop where
  rep : Rep s.pool
  free_le : s.pool.freeCount ≤ cap
  fresh : ∀ slot, s.pool.count ≤ slot → ¬ s.pool.DeadAt slot
  handles : ∀ h ∈ s.issued, handleSlot h < s.pool.count ∧ dead (handleGen h) = false

/-! ## Reading and writing single cells -/

namespace PoolLemmas

theorem gen_setGen_self {p : Pool ρ cap} {slot : Int} {g : BitVec 32} (h0 : 0 ≤ slot)
    (h1 : slot < cap) : (p.setGen slot g).gen slot = some g := by
  have hlt : slot.toNat < cap := by omega
  simp [Pool.gen, Pool.setGen, h0, hlt]

theorem gen_setGen_other {p : Pool ρ cap} {slot s : Int} {g : BitVec 32} (h : s ≠ slot)
    (h0 : 0 ≤ slot) : (p.setGen slot g).gen s = p.gen s := by
  unfold Pool.gen Pool.setGen
  split
  · next hs =>
    have hne : slot.toNat ≠ s.toNat := by omega
    simp [hne]
  · rfl

theorem gen_eq_some {p : Pool ρ cap} {s : Int} (h0 : 0 ≤ s) (h1 : s < cap) :
    ∃ g, p.gen s = some g := by
  have hlt : s.toNat < cap := by omega
  exact ⟨p.genCounters[s.toNat], by simp [Pool.gen, h0, hlt]⟩

theorem gen_bounds {p : Pool ρ cap} {s : Int} {g : BitVec 32} (h : p.gen s = some g) :
    0 ≤ s ∧ s < cap := by
  unfold Pool.gen at h
  split at h
  · next hs =>
    have hlt := (Vector.getElem?_eq_some_iff.mp h).1
    omega
  · cases h

theorem dead_masked (g : BitVec 32) : dead (g &&& 2147483647#32) = false := by
  have hmask : (2147483647#32).msb = false := by decide
  simp [dead, BitVec.msb_and, hmask]

theorem dead_nextGen (g : BitVec 32) (e : Bool) : dead (nextGen g e) = false := by
  unfold nextGen
  dsimp only
  generalize (if e = true then g + 1#32 else g) = genDead
  split
  · decide
  · exact dead_masked genDead

theorem dead_freed (g : BitVec 32) : dead ((g + 1#32) ||| 2147483648#32) = true := by
  have hbit : (2147483648#32).msb = true := by decide
  simp [dead, BitVec.msb_or, hbit]

theorem handleSlot_pack {slot : Int} (h0 : 0 ≤ slot) (h1 : slot < 2 ^ 31) (g : BitVec 32) :
    handleSlot (packHandle slot g) = slot := by
  have hlow : (packHandle slot g).setWidth 32 = BitVec.ofInt 32 slot := by
    unfold packHandle
    ext i hi
    simp
  unfold handleSlot
  rw [hlow, BitVec.toNat_ofInt]
  omega

theorem handleGen_pack (slot : Int) (g : BitVec 32) : handleGen (packHandle slot g) = g := by
  unfold handleGen packHandle
  ext i hi
  have hlt : 32 + i < 64 := by omega
  have hge : ¬ 32 + i < 32 := by omega
  have hi' : i < 64 := by omega
  simp [hlt, hge, hi', BitVec.getLsbD_eq_getElem hi]

/-! ## The stack of free slots -/

theorem deadAt_congr {p q : Pool ρ cap} {s : Int} (h : p.gen s = q.gen s) :
    p.DeadAt s ↔ q.DeadAt s := by
  unfold Pool.DeadAt
  rw [h]

theorem deadAt_iff {p : Pool ρ cap} {s : Int} {g : BitVec 32} (h : p.gen s = some g) :
    p.DeadAt s ↔ dead g = true := by
  constructor
  · rintro ⟨g', hg', hd⟩
    rw [h] at hg'
    cases hg'
    exact hd
  · intro hd
    exact ⟨g, h, hd⟩

theorem drop_take_succ {l : List Int} {n : Nat} (h1 : 1 ≤ n) (hn : n < l.length) :
    (l.take (n + 1)).drop 1 = (l.take n).drop 1 ++ [l[n]] := by
  rw [List.take_succ_eq_append_getElem hn]
  exact List.drop_append_of_le_length (by simp; omega)

/-- Popping takes the last entry off `freeSlots`. -/
theorem freeSlots_pop {p : Pool ρ cap} (h1 : 1 < p.freeCount) (h2 : p.freeCount ≤ cap) :
    ∃ slot, p.loadFree (p.freeCount - 1) = some slot ∧
      p.freeSlots = ({ p with freeCount := p.freeCount - 1 } : Pool ρ cap).freeSlots ++ [slot] := by
  have hlt : (p.freeCount - 1).toNat < p.freeList.toList.length := by simp; omega
  refine ⟨p.freeList.toList[(p.freeCount - 1).toNat], ?_, ?_⟩
  · have hn : ¬ p.freeCount - 1 = cap := by omega
    have hm : ¬ p.freeCount - 1 = -1 := by omega
    have hp' : 1 ≤ p.freeCount := by omega
    simp [Pool.loadFree, hn, hm, hp']
  · have hsucc : p.freeCount.toNat = (p.freeCount - 1).toNat + 1 := by omega
    unfold Pool.freeSlots
    rw [hsucc]
    exact drop_take_succ (by omega) hlt

/-- Pushing appends the freed slot, as long as the stack has a cell left. -/
theorem freeSlots_push {p : Pool ρ cap} (slot : Int) (h1 : 1 ≤ p.freeCount)
    (h2 : p.freeCount < cap) :
    ∃ q, p.storeFree p.freeCount slot = some q ∧ q.count = p.count ∧
      q.genCounters = p.genCounters ∧
      ({ q with freeCount := p.freeCount + 1 } : Pool ρ cap).freeSlots =
        p.freeSlots ++ [slot] := by
  have hn : ¬ p.freeCount = cap := by omega
  have hm : ¬ p.freeCount = -1 := by omega
  have hp : 0 ≤ p.freeCount ∧ p.freeCount < cap := by omega
  refine ⟨{ p with freeList := p.freeList.setIfInBounds p.freeCount.toNat slot }, ?_, rfl, rfl, ?_⟩
  · simp [Pool.storeFree, hn, hm, hp]
  · have hsucc : (p.freeCount + 1).toNat = p.freeCount.toNat + 1 := by omega
    have hlt : p.freeCount.toNat < (p.freeList.toList.set p.freeCount.toNat slot).length := by
      simp
      omega
    unfold Pool.freeSlots
    simp only [hsucc, Vector.toList_setIfInBounds]
    rw [drop_take_succ (by omega) hlt, List.take_set_of_le (Nat.le_refl _)]
    simp

/-! ## One insert -/

/-- What an insert at `slot` did to the pool: `slot` has left the stack and is no longer
dead, every other row is as it was, and `count` covers `slot`. -/
structure Wrote (p q : Pool ρ cap) (slot : Int) : Prop where
  count : q.count = p.count ∨ (slot = p.count ∧ q.count = p.count + 1)
  bound : slot < q.count ∧ q.count ≤ cap
  free : 1 ≤ q.freeCount ∧ q.freeCount ≤ p.freeCount
  distinct : q.freeSlots.Nodup
  stack : ∀ s, s ∈ q.freeSlots ↔ s ∈ p.freeSlots ∧ s ≠ slot
  alive : ¬ q.DeadAt slot
  others : ∀ s, s ≠ slot → q.gen s = p.gen s

theorem rep_of_wrote {s : Sys ρ cap} {q : Pool ρ cap} {slot : Int} (hg : Good s)
    (hw : Wrote s.pool q slot) : Rep q := by
  have hc0 := hg.rep.count_nonneg
  have hcount := hw.count
  refine ⟨by omega, hw.bound.2, hw.free.1, hw.distinct, ?_⟩
  intro t
  rw [hw.stack t, hg.rep.exactly t]
  constructor
  · rintro ⟨⟨h0, h1, hd⟩, hne⟩
    exact ⟨h0, by omega, (deadAt_congr (hw.others t hne)).mpr hd⟩
  · rintro ⟨h0, h1, hd⟩
    have hne : t ≠ slot := by
      rintro rfl
      exact hw.alive hd
    exact ⟨⟨h0, by omega, (deadAt_congr (hw.others t hne)).mp hd⟩, hne⟩

theorem good_of_wrote {s : Sys ρ cap} {q : Pool ρ cap} {slot : Int} {h : BitVec 64}
    (hg : Good s) (hw : Wrote s.pool q slot) (hslot : handleSlot h = slot)
    (hgen : dead (handleGen h) = false) : Good (⟨q, h :: s.issued⟩ : Sys ρ cap) := by
  have hcount := hw.count
  have hbound := hw.bound
  have hgrow : s.pool.count ≤ q.count := by omega
  refine ⟨rep_of_wrote hg hw, le_trans hw.free.2 hg.free_le, ?_, ?_⟩
  · intro t ht hd
    have hge : q.count ≤ t := ht
    have hne : t ≠ slot := by omega
    exact hg.fresh t (by omega) ((deadAt_congr (hw.others t hne)).mp hd)
  · intro h' hmem
    rcases List.mem_cons.mp hmem with rfl | hold
    · exact ⟨by rw [hslot]; exact hbound.1, hgen⟩
    · have hh := hg.handles h' hold
      exact ⟨lt_of_lt_of_le hh.1 hgrow, hh.2⟩

/-- The blocks from `write_fields` on, for a slot inside the pool. -/
theorem insert_writes {p : Pool ρ cap} (row : ρ) {ev : Int} {c : Choice ρ cap}
    (hc : chooseSlot p ev = some (some c)) (h0 : 0 ≤ c.slot) (h1 : c.slot < cap) :
    ∃ g q, archeInsert p row ev = some ⟨q, packHandle c.slot (nextGen g c.isEvict), true,
        some c.slot, c.isEvict, c.freeIdx, false⟩ ∧
      q.count = (if c.doIncr then c.pool.count + 1 else c.pool.count) ∧
      q.freeCount = c.pool.freeCount ∧ q.freeSlots = c.pool.freeSlots ∧
      c.pool.gen c.slot = some g ∧ q.gen c.slot = some (nextGen g c.isEvict) ∧
      ∀ s, s ≠ c.slot → q.gen s = c.pool.gen s := by
  obtain ⟨g, hgen⟩ := gen_eq_some (p := c.pool) h0 h1
  have hrow : c.pool.writeFields c.slot row =
      some { c.pool with rows := c.pool.rows.setIfInBounds c.slot.toNat row } := by
    simp [Pool.writeFields, h0, h1]
  let p1 : Pool ρ cap := { c.pool with rows := c.pool.rows.setIfInBounds c.slot.toNat row }
  let p2 : Pool ρ cap := if c.doIncr then { p1 with count := p1.count + 1 } else p1
  have hp2 : ∀ s, p2.gen s = c.pool.gen s := by
    intro s
    dsimp only [p2]
    split <;> rfl
  refine ⟨g, p2.setGen c.slot (nextGen g c.isEvict), ?_, ?_, ?_, ?_, hgen, ?_, ?_⟩
  · have hgen2 : p2.gen c.slot = some g := by rw [hp2, hgen]
    unfold archeInsert
    simp only [hc, hrow]
    simp only [p2, p1] at hgen2
    rw [hgen2]
  · dsimp only [p2, Pool.setGen]
    split <;> rfl
  · dsimp only [p2, Pool.setGen]
    split <;> rfl
  · dsimp only [p2, Pool.setGen, Pool.freeSlots]
    split <;> rfl
  · exact gen_setGen_self h0 h1
  · intro s hs
    rw [gen_setGen_other hs h0, hp2]

/-! ## What a call leaves, of any pool -/

theorem chooseSlot_pool {p : Pool ρ cap} {ev : Int} {c : Choice ρ cap}
    (h : chooseSlot p ev = some (some c)) (hfree : 0 ≤ p.freeCount) :
    (∀ t, c.pool.gen t = p.gen t) ∧ c.pool.count = p.count ∧ (c.doIncr = true → c.slot = p.count) ∧
      0 ≤ c.pool.freeCount ∧ (c.pool.freeCount = 0 → p.freeCount = 0) := by
  unfold chooseSlot at h
  split at h
  · next hpop =>
    dsimp only at h
    split at h
    · cases h
    · cases h
      refine ⟨fun t => rfl, rfl, nofun, ?_, ?_⟩
      · show 0 ≤ p.freeCount - 1
        omega
      · show p.freeCount - 1 = 0 → p.freeCount = 0
        omega
  · split at h
    · split at h
      · cases h
        exact ⟨fun t => rfl, rfl, nofun, hfree, id⟩
      · cases h
    · cases h
      exact ⟨fun t => rfl, rfl, fun _ => rfl, hfree, id⟩

/-- An insert that returns writes one slot, the one it chose, and its row is live. -/
theorem insert_outcome {p : Pool ρ cap} {row : ρ} {ev : Int} {o : Outcome ρ cap}
    (h : archeInsert p row ev = some o) (hfree : 0 ≤ p.freeCount) :
    (o.slot = none ∧ o.pool = p) ∨
      ∃ c, chooseSlot p ev = some (some c) ∧ o.slot = some c.slot ∧ (0 ≤ c.slot ∧ c.slot < cap) ∧
        (o.pool.count = p.count ∨ (o.pool.count = p.count + 1 ∧ c.slot = p.count)) ∧
        (0 ≤ o.pool.freeCount ∧ (o.pool.freeCount = 0 → p.freeCount = 0)) ∧
        ¬ o.pool.DeadAt c.slot ∧ ∀ t, t ≠ c.slot → o.pool.gen t = p.gen t := by
  have horig := h
  unfold archeInsert at h
  split at h
  · cases h
  · cases h
    exact .inl ⟨rfl, rfl⟩
  · next c hc =>
    right
    obtain ⟨hgen, hcount, hincr, hfree'⟩ := chooseSlot_pool hc hfree
    split at h
    · cases h
    · next hwrite =>
      unfold Pool.writeFields at hwrite
      split at hwrite
      · next hbound =>
        obtain ⟨g, q, hq, hqc, hqf, -, -, hqg, hothers⟩ := insert_writes row hc hbound.1 hbound.2
        cases horig.symm.trans hq
        refine ⟨c, hc, rfl, hbound, ?_, ?_, ?_, fun t ht => (hothers t ht).trans (hgen t)⟩
        · show q.count = p.count ∨ (q.count = p.count + 1 ∧ c.slot = p.count)
          rw [hqc, hcount]
          cases hi : c.doIncr with
          | true => exact .inr ⟨rfl, hincr hi⟩
          | false => exact .inl rfl
        · show 0 ≤ q.freeCount ∧ (q.freeCount = 0 → p.freeCount = 0)
          rw [hqf]
          exact hfree'
        · intro hdead
          have hbit := (deadAt_iff hqg).mp hdead
          rw [dead_nextGen] at hbit
          cases hbit
      · cases hwrite

/-- A delete that returns frees one row at most. -/
theorem delete_outcome {p : Pool ρ cap} {h : BitVec 64} {o : Outcome ρ cap}
    (hdel : archeDelete p h = some o) (hab : o.aborted = false) (hfree : 0 ≤ p.freeCount) :
    (o.slot = none ∧ o.pool = p) ∨
      ∃ slot g, o.slot = some slot ∧ o.pool.gen slot = some g ∧ dead g = true ∧
        o.pool.count = p.count ∧ 0 < o.pool.freeCount ∧ ∀ t, t ≠ slot → o.pool.gen t = p.gen t := by
  unfold archeDelete at hdel
  dsimp only at hdel
  split at hdel
  · cases hdel
  · next storedGen hgen =>
    obtain ⟨h0, h1⟩ := gen_bounds hgen
    split at hdel
    · cases hdel
      cases hab
    · split at hdel
      · cases hdel
        exact .inl ⟨rfl, rfl⟩
      · right
        generalize hp1 : p.setGen (handleSlot h) ((storedGen + 1#32) ||| 2147483648#32) = p1 at hdel
        have hsame : p1.freeCount = p.freeCount ∧ p1.count = p.count := by
          subst hp1
          exact ⟨rfl, rfl⟩
        split at hdel
        · cases hdel
        · next p2 hstore =>
          cases hdel
          have hp2 : (∀ t, p2.gen t = p1.gen t) ∧ p2.count = p1.count := by
            unfold Pool.storeFree at hstore
            split at hstore
            · cases hstore
              exact ⟨fun t => rfl, rfl⟩
            · split at hstore
              · omega
              · split at hstore
                · cases hstore
                  exact ⟨fun t => rfl, rfl⟩
                · cases hstore
          refine ⟨handleSlot h, _, rfl, ?_, dead_freed storedGen, hp2.2.trans hsame.2, ?_, fun t ht => ?_⟩
          · show p2.gen (handleSlot h) = _
            rw [hp2.1, ← hp1]
            exact gen_setGen_self h0 h1
          · show 0 < p1.freeCount + 1
            omega
          · show p2.gen t = p.gen t
            rw [hp2.1, ← hp1]
            exact gen_setGen_other ht h0

theorem freeSlots_of_one {p : Pool ρ cap} (h : p.freeCount = 1) : p.freeSlots = [] := by
  unfold Pool.freeSlots
  rw [h]
  apply List.drop_eq_nil_of_le
  simp

/-- The three ways an insert finds a slot: from the stack, by eviction, or at `count`. -/
theorem chooseSlot_cases {s : Sys ρ cap} (hg : Good s) {ev : Int}
    (hev : ev = -1 ∨ (0 ≤ ev ∧ ev < cap)) :
    (chooseSlot s.pool ev = some none ∧ s.pool.count = cap) ∨
    ∃ c, chooseSlot s.pool ev = some (some c) ∧ 0 ≤ c.slot ∧ c.slot < cap ∧
      (∀ i ∈ c.freeIdx, 0 ≤ i ∧ i < cap) ∧ (c.isEvict = false → ¬ s.pool.LiveAt c.slot) ∧
      ∀ q : Pool ρ cap,
        q.count = (if c.doIncr then c.pool.count + 1 else c.pool.count) →
        q.freeCount = c.pool.freeCount → q.freeSlots = c.pool.freeSlots →
        ¬ q.DeadAt c.slot → (∀ t, t ≠ c.slot → q.gen t = c.pool.gen t) →
        Wrote s.pool q c.slot := by
  obtain ⟨⟨hc0, hcle, hf1, hnd, hex⟩, hfle, hfresh, hhandles⟩ := hg
  unfold chooseSlot
  split
  · next hpop =>
    obtain ⟨slot, hload, hsplit⟩ := freeSlots_pop hpop hfle
    right
    have hmem : slot ∈ s.pool.freeSlots := by rw [hsplit]; simp
    have hslot := (hex slot).mp hmem
    have hnd' := hnd
    rw [hsplit, List.nodup_append] at hnd'
    simp only [hload]
    refine ⟨_, rfl, hslot.1, by dsimp only; omega, ?_, ?_, ?_⟩
    · intro i hi
      rw [List.mem_singleton] at hi
      omega
    · intro _ hlive
      exact hlive.2.2 hslot.2.2
    · intro q hqc hqf hqs hqa hqo
      have hqc' : q.count = s.pool.count := hqc
      have hqf' : q.freeCount = s.pool.freeCount - 1 := hqf
      have hlt : slot < q.count := by omega
      refine ⟨Or.inl hqc', ⟨hlt, by omega⟩, by omega, ?_, ?_, hqa, hqo⟩
      · rw [hqs]
        exact hnd'.1
      · intro t
        rw [hqs, hsplit, List.mem_append, List.mem_singleton]
        constructor
        · intro ht
          exact ⟨Or.inl ht, fun h => hnd'.2.2 t ht slot (by simp) h⟩
        · rintro ⟨ht | ht, hne⟩
          · exact ht
          · exact absurd ht hne
  · next hnopop =>
    have hone : s.pool.freeCount = 1 := by omega
    have hempty := freeSlots_of_one hone
    split
    · next hfull =>
      split
      · next hevict =>
        right
        refine ⟨_, rfl, hevict, by dsimp only; omega, by simp, by simp, ?_⟩
        intro q hqc hqf hqs hqa hqo
        have hqc' : q.count = s.pool.count := hqc
        have hqf' : q.freeCount = s.pool.freeCount := hqf
        have hlt : ev < q.count := by omega
        refine ⟨Or.inl hqc', ⟨hlt, by omega⟩, by omega, ?_, ?_, hqa, hqo⟩
        · rw [hqs]
          exact hnd
        · intro t
          rw [hqs]
          simp [hempty]
      · next hnever =>
        left
        exact ⟨rfl, by omega⟩
    · next hroom =>
      right
      refine ⟨_, rfl, hc0, by dsimp only; omega, by simp, ?_, ?_⟩
      · intro _ hlive
        exact absurd hlive.2.1 (by dsimp only; omega)
      · intro q hqc hqf hqs hqa hqo
        have hqc' : q.count = s.pool.count + 1 := hqc
        have hqf' : q.freeCount = s.pool.freeCount := hqf
        have hlt : s.pool.count < q.count := by omega
        refine ⟨Or.inr ⟨rfl, hqc'⟩, ⟨hlt, by omega⟩, by omega, ?_, ?_, hqa, hqo⟩
        · rw [hqs]
          exact hnd
        · intro t
          rw [hqs]
          simp [hempty]

theorem insert_good {s : Sys ρ cap} (hg : Good s) (hcap : 1 ≤ cap) (hword : cap < 2 ^ 31)
    (row : ρ) {ev : Int} (hev : ev = -1 ∨ (0 ≤ ev ∧ ev < cap)) :
    CallOk s.pool (.insert row ev) ∧
      ∀ o, archeInsert s.pool row ev = some o → Good (s.after (.insert row ev) o) := by
  rcases chooseSlot_cases hg hev with ⟨hfull, hcount⟩ | ⟨c, hc, h0, h1, hidx, hnl, hwrote⟩
  · have hins : archeInsert s.pool row ev = some ⟨s.pool, 0#64, false, none, false, [], false⟩ := by
      simp [archeInsert, hfull]
    refine ⟨⟨_, hins, by simp, by simp⟩, ?_⟩
    intro o ho
    rw [hins] at ho
    cases ho
    -- a refused insert returns the handle 0, which names row 0 of the full pool
    refine ⟨hg.rep, hg.free_le, hg.fresh, ?_⟩
    intro h hmem
    rcases List.mem_cons.mp hmem with rfl | hold
    · refine ⟨?_, show dead (handleGen 0#64) = false by decide⟩
      have hzero : handleSlot 0#64 = 0 := by decide
      have hcnt : (s.after (.insert row ev) ⟨s.pool, 0#64, false, none, false, [], false⟩).pool.count
          = cap := hcount
      rw [hzero, hcnt]
      omega
    · exact hg.handles h hold
  · obtain ⟨g, q, hins, hqc, hqf, hqs, -, hqg, hqo⟩ := insert_writes row hc h0 h1
    have hqa : ¬ q.DeadAt c.slot := by
      rw [deadAt_iff hqg, dead_nextGen]
      decide
    have hslot := handleSlot_pack h0 (by omega) (nextGen g c.isEvict)
    refine ⟨⟨_, hins, hidx, ?_⟩, ?_⟩
    · intro row' ev' _ _ hne
      exact ⟨c.slot, rfl, h0, h1, hnl hne, hslot⟩
    · intro o ho
      rw [hins] at ho
      cases ho
      refine good_of_wrote hg (hwrote q hqc hqf hqs hqa hqo) hslot ?_
      rw [handleGen_pack]
      exact dead_nextGen g c.isEvict

/-! ## One delete -/

/-- What a delete of `slot` did: the slot is dead and on top of the stack. -/
theorem good_of_freed {s : Sys ρ cap} {q : Pool ρ cap} {slot : Int} (hg : Good s)
    (h0 : 0 ≤ slot) (h1 : slot < s.pool.count) (hlive : ¬ s.pool.DeadAt slot)
    (hcount : q.count = s.pool.count) (hfc : q.freeCount = s.pool.freeCount + 1)
    (hroom : s.pool.freeCount < cap) (hfree : q.freeSlots = s.pool.freeSlots ++ [slot])
    (hdead : q.DeadAt slot) (hothers : ∀ t, t ≠ slot → q.gen t = s.pool.gen t) :
    Good (⟨q, s.issued⟩ : Sys ρ cap) := by
  obtain ⟨⟨hc0, hcle, hf1, hnd, hex⟩, hfle, hfresh, hhandles⟩ := hg
  have hnew : slot ∉ s.pool.freeSlots := fun hmem => hlive ((hex slot).mp hmem).2.2
  have hq : 0 ≤ q.count ∧ q.count ≤ cap ∧ 1 ≤ q.freeCount ∧ q.freeCount ≤ cap := by omega
  refine ⟨⟨hq.1, hq.2.1, hq.2.2.1, ?_, ?_⟩, hq.2.2.2, ?_, ?_⟩
  · rw [hfree]
    exact List.nodup_append.mpr ⟨hnd, by simp, fun a ha b hb => by
      rw [List.mem_singleton] at hb
      rintro rfl
      exact hnew (hb ▸ ha)⟩
  · intro t
    rw [hfree, List.mem_append, List.mem_singleton, hcount]
    by_cases ht : t = slot
    · subst ht
      exact ⟨fun _ => ⟨h0, h1, hdead⟩, fun _ => Or.inr rfl⟩
    · rw [hex t, deadAt_congr (hothers t ht)]
      simp [ht]
  · intro t ht hd
    have hge : q.count ≤ t := ht
    have hne : t ≠ slot := by omega
    exact hfresh t (by omega) ((deadAt_congr (hothers t hne)).mp hd)
  · intro h hmem
    have hh := hhandles h hmem
    exact ⟨by rw [← hcount] at hh; exact hh.1, hh.2⟩

theorem delete_good {s : Sys ρ cap} (hg : Good s) {handle : BitVec 64}
    (hissued : handle ∈ s.issued) (hspare : SpareCell s (.delete handle)) :
    CallOk s.pool (.delete handle) ∧
      ∀ o, archeDelete s.pool handle = some o → Good (s.after (.delete handle) o) := by
  have hh := hg.handles handle hissued
  have h0 : 0 ≤ handleSlot handle := by unfold handleSlot; omega
  have h1 : handleSlot handle < cap := lt_of_lt_of_le hh.1 hg.rep.count_le
  obtain ⟨g, hgen⟩ := gen_eq_some (p := s.pool) h0 h1
  by_cases hstale : handleGen handle ≠ g
  · have hdel : archeDelete s.pool handle = some ⟨s.pool, handle, false, none, false, [], true⟩ := by
      simp [archeDelete, hgen, hstale]
    refine ⟨⟨_, hdel, by simp, by simp⟩, ?_⟩
    intro o ho
    rw [hdel] at ho
    cases ho
    exact hg
  have hsame : handleGen handle = g := not_not.mp hstale
  by_cases hlast : g = 2147483647#32
  · have hdel : archeDelete s.pool handle =
        some ⟨s.pool, handle, false, none, false, [], false⟩ := by
      simp [archeDelete, hgen, hsame, hlast]
    refine ⟨⟨_, hdel, by simp, by simp⟩, ?_⟩
    intro o ho
    rw [hdel] at ho
    cases ho
    exact hg
  -- the freeing path: the generation is bumped and marked, then the slot is pushed
  have hroom : s.pool.freeCount < cap := hspare (by rw [hgen, hsame]) (by rw [hsame]; exact hlast)
  have hf1 := hg.rep.free_pos
  let p1 := s.pool.setGen (handleSlot handle) ((g + 1#32) ||| 2147483648#32)
  obtain ⟨q, hstore, hqc, hqg, hqs⟩ :=
    freeSlots_push (p := p1) (handleSlot handle) hf1 hroom
  have hqgen : ∀ t, ({ q with freeCount := p1.freeCount + 1 } : Pool ρ cap).gen t = p1.gen t := by
    intro t
    simp [Pool.gen, hqg]
  have hdel : archeDelete s.pool handle = some ⟨{ q with freeCount := p1.freeCount + 1 }, handle,
      true, some (handleSlot handle), false, [p1.freeCount], false⟩ := by
    have hstore' := hstore
    simp only [p1] at hstore'
    simp [archeDelete, hgen, hsame, hlast, hstore', p1]
  have hlive : ¬ s.pool.DeadAt (handleSlot handle) := by
    rw [deadAt_iff hgen, ← hsame, hh.2]
    decide
  refine ⟨⟨_, hdel, ?_, by simp⟩, ?_⟩
  · intro i hi
    rw [List.mem_singleton] at hi
    have hfc : i = s.pool.freeCount := hi
    omega
  · intro o ho
    rw [hdel] at ho
    cases ho
    refine good_of_freed hg h0 hh.1 hlive hqc rfl hroom hqs ?_ ?_
    · refine ⟨_, ?_, dead_freed g⟩
      rw [hqgen]
      exact gen_setGen_self h0 h1
    · intro t ht
      rw [hqgen]
      exact gen_setGen_other ht h0

/-! ## Whole runs -/

theorem call_good {s : Sys ρ cap} (hg : Good s) (hcap : 1 ≤ cap) (hword : cap < 2 ^ 31)
    {op : Op ρ} (hadm : s.Admits op) (hspare : SpareCell s op) :
    CallOk s.pool op ∧ ∀ o, exec s.pool op = some o → Good (s.after op o) := by
  cases op with
  | insert row ev => exact insert_good hg hcap hword row hadm
  | delete handle => exact delete_good hg hadm hspare

theorem gen_start {zero : ρ} {length t : Int} {g : BitVec 32}
    (h : (allocInit cap zero length).gen t = some g) : g = 0#32 := by
  have hb := gen_bounds h
  have hlt : t.toNat < cap := by omega
  have hzero : (allocInit cap zero length).gen t = some 0#32 := by
    simp [allocInit, Pool.gen, hb.1, hlt]
  rw [hzero] at h
  cases h
  rfl

theorem good_start (hcap : 1 ≤ cap) (zero : ρ) {length : Int} (h0 : 0 ≤ length)
    (h1 : length ≤ cap) : Good (Sys.start cap zero length) := by
  have hnodead : ∀ t, ¬ (allocInit cap zero length).DeadAt t := by
    rintro t ⟨g, hgen, hd⟩
    rw [gen_start hgen] at hd
    exact absurd hd (by decide)
  have hempty : (allocInit cap zero length).freeSlots = [] := freeSlots_of_one rfl
  refine ⟨⟨h0, h1, le_refl _, ?_, ?_⟩, ?_, ?_, ?_⟩
  · have : (Sys.start cap zero length).pool.freeSlots = [] := hempty
    rw [this]
    exact List.nodup_nil
  · intro t
    have : (Sys.start cap zero length).pool.freeSlots = [] := hempty
    rw [this]
    simp only [List.not_mem_nil, false_iff]
    rintro ⟨-, -, hd⟩
    exact hnodead t hd
  · have : (1 : Int) ≤ cap := by omega
    exact this
  · intro t _
    exact hnodead t
  · intro h hmem
    exact absurd hmem (by simp [Sys.start])

theorem run_good (hcap : 1 ≤ cap) (hword : cap < 2 ^ 31) {zero : ρ} {length : Int}
    (h0 : 0 ≤ length) (h1 : length ≤ cap) {ops : List (Op ρ)} {s : Sys ρ cap}
    (hrun : Run (Guarded Sys.Step SpareCell) (Sys.start cap zero length) ops s) : Good s := by
  refine Run.inv Good (good_start hcap zero h0 h1) ?_ hrun
  rintro a op b ha ⟨⟨hadm, o, ho, -, rfl⟩, hspare⟩
  exact (call_good ha hcap hword hadm hspare).2 o ho

end PoolLemmas

/-- `Rep` holds after every run of calls, and every next call is `CallOk`, provided the
declared live-count fits and no call frees a row while the stack is full. -/
theorem rep_of_spareCell (hcap : 1 ≤ cap) (hword : cap < 2 ^ 31) (zero : ρ) (length : Int)
    (h0 : 0 ≤ length) (h1 : length ≤ cap) {ops : List (Op ρ)} {s : Sys ρ cap}
    (hrun : Run (Guarded Sys.Step SpareCell) (Sys.start cap zero length) ops s) :
    Rep s.pool ∧ ∀ op, s.Admits op → SpareCell s op → CallOk s.pool op := by
  have hg : Good s := PoolLemmas.run_good hcap hword h0 h1 hrun
  exact ⟨hg.rep, fun op hadm hspare => (PoolLemmas.call_good hg hcap hword hadm hspare).1⟩

/-- `[2]P(0)` after two inserts, and the first of the two rows deleted again. -/
def exTwoRows : Sys Unit 2 where
  pool :=
    { rows := #v[(), ()], count := 2, freeList := #v[0, 0], freeCount := 2,
      genCounters := #v[2147483650#32, 1#32] }
  issued := [packHandle 1 1#32, packHandle 0 1#32]

theorem exTwoRows_run :
    Run (Guarded Sys.Step SpareCell) (Sys.start 2 () 0)
      [.insert () (-1), .insert () (-1), .delete (packHandle 0 1#32)] exTwoRows := by
  have h1 : Run (Guarded Sys.Step SpareCell) (Sys.start 2 () 0) [.insert () (-1)]
      ⟨⟨#v[(), ()], 1, #v[0, 0], 1, #v[1#32, 0#32]⟩, [packHandle 0 1#32]⟩ :=
    Run.snoc Run.nil ⟨⟨Or.inl rfl, _, rfl, rfl, rfl⟩, trivial⟩
  have h2 : Run (Guarded Sys.Step SpareCell) (Sys.start 2 () 0)
      ([.insert () (-1)] ++ [.insert () (-1)])
      ⟨⟨#v[(), ()], 2, #v[0, 0], 1, #v[1#32, 1#32]⟩, [packHandle 1 1#32, packHandle 0 1#32]⟩ :=
    Run.snoc h1 ⟨⟨Or.inl rfl, _, rfl, rfl, rfl⟩, trivial⟩
  exact Run.snoc h2 ⟨⟨by simp [Sys.Admits], _, rfl, rfl, rfl⟩, fun _ _ => by decide⟩

theorem rep_of_spareCell_two :
    Rep exTwoRows.pool ∧
      ∀ op, exTwoRows.Admits op → SpareCell exTwoRows op → CallOk exTwoRows.pool op :=
  rep_of_spareCell (by decide) (by decide) () 0 (by decide) (by decide) exTwoRows_run

/-- What the pool is meant to guarantee: `Rep` and `CallOk` along every run. -/
def RepAlways : Prop :=
  ∀ (cap : Nat), 1 ≤ cap → cap < 2 ^ 31 → ∀ (length : Int), 0 ≤ length → length ≤ cap →
    ∀ (ops : List (Op Unit)) (s : Sys Unit cap), Run Sys.Step (Sys.start cap () length) ops s →
      Rep s.pool ∧ ∀ op, s.Admits op → CallOk s.pool op

/-- A one-row pool, its row inserted: deleting it stores to `free_list[1]`, which is the
`free_count` field, and the next insert writes row `2`. -/
theorem not_repAlways : ¬ RepAlways := by
  intro h
  have hrun : Run Sys.Step (Sys.start 1 () 0) [.insert () (-1)]
      (⟨⟨#v[()], 1, #v[0], 1, #v[1#32]⟩, [packHandle 0 1#32]⟩ : Sys Unit 1) :=
    Run.snoc Run.nil ⟨Or.inl rfl, _, rfl, rfl, rfl⟩
  have hcall := (h 1 (by decide) (by decide) 0 (by decide) (by decide) _ _ hrun).2
    (.delete (packHandle 0 1#32)) (List.mem_singleton.mpr rfl)
  obtain ⟨o, ho, hidx, -⟩ := hcall
  have hdel : (exec (⟨#v[()], 1, #v[0], 1, #v[1#32]⟩ : Pool Unit 1)
      (.delete (packHandle 0 1#32))).map Outcome.freeIdx = some [1] := by decide
  rw [ho] at hdel
  have hone : o.freeIdx = [1] := by simpa using hdel
  have := hidx 1 (by rw [hone]; exact List.mem_singleton.mpr rfl)
  exact absurd this.2 (by decide)

end Arche.Codegen
