import Arche.Codegen.PoolInvariant
import Mathlib.Data.List.Perm.Lattice

/-!
# Free capacity over inserts, deletes and sorts

`emit_sort` ends with a trim: `count` is the number of live rows, every
generation below the old `count` is `0` and `free_count` is `0`. The other two
places that write `free_count` keep it at `1` or more, cell `0` being unused:
the first row freed after a sort is stored in that cell and never found again.

`insert_ok_iff` says that a pool accepts an insert exactly while it has fewer
live rows than `cap`, in every run without such a delete.
`not_capacityAlways` is a pool of one row that is empty and refuses an insert.
-/

namespace Arche.Codegen

open Arche.Lib

variable {ρ : Type} {cap : Nat}

/-- The row at `i` has the dead bit set, as `icmp slt i32 %gen, 0` reads it. -/
def Pool.deadRow (p : Pool ρ cap) (i : Nat) : Bool :=
  match p.gen i with
  | some g => dead g
  | none => false

/-- What the first pass of `emit_sort` counts. -/
def Pool.live (p : Pool ρ cap) : Nat :=
  ((List.range p.count.toNat).filter fun i => !p.deadRow i).length

/-- The end of `emit_sort`. `rows` is what the permutation of the columns left. -/
def Pool.sortTrim (p : Pool ρ cap) (rows : Vector ρ cap) : Pool ρ cap where
  rows := rows
  count := p.live
  freeList := p.freeList
  freeCount := 0
  genCounters := p.genCounters.mapIdx fun i g => if (i : Int) < p.count then 0#32 else g

/-- The calls on a pool with the default handler `reject`. -/
inductive PoolOp (ρ : Type) (cap : Nat) where
  | insert (row : ρ)
  | delete (handle : BitVec 64)
  | sort (rows : Vector ρ cap)

def execPool (p : Pool ρ cap) : PoolOp ρ cap → Option (Outcome ρ cap)
  | .insert row => archeInsert p row (-1)
  | .delete handle => archeDelete p handle
  | .sort rows => some ⟨p.sortTrim rows, 0#64, true, none, false, [], false⟩

/-- A delete gets a handle that an earlier insert returned. -/
def Sys.AdmitsPool (s : Sys ρ cap) : PoolOp ρ cap → Prop
  | .delete handle => handle ∈ s.issued
  | .insert _ | .sort _ => True

def Sys.afterPool (s : Sys ρ cap) (op : PoolOp ρ cap) (o : Outcome ρ cap) : Sys ρ cap :=
  match op with
  | .insert _ => ⟨o.pool, o.handle :: s.issued⟩
  | .delete _ | .sort _ => ⟨o.pool, s.issued⟩

/-- One call that returns. -/
def Sys.PoolStep (s : Sys ρ cap) (op : PoolOp ρ cap) (t : Sys ρ cap) : Prop :=
  s.AdmitsPool op ∧ ∃ o, execPool s.pool op = some o ∧ o.aborted = false ∧ t = s.afterPool op o

/-- An insert returns, and reports `ok` exactly when a row is free. -/
def CapacityKept (p : Pool ρ cap) : Prop :=
  ∀ row, ∃ o, archeInsert p row (-1) = some o ∧ (o.ok = true ↔ p.live < cap)

/-- A delete that frees a row frees one below `count`, and pushes it to a cell of the stack that an
insert looks at. -/
def Reclaims (s : Sys ρ cap) : PoolOp ρ cap → Prop
  | .delete handle =>
    s.pool.gen (handleSlot handle) = some (handleGen handle) → handleGen handle ≠ 2147483647#32 →
      handleSlot handle < s.pool.count ∧ 1 ≤ s.pool.freeCount ∧ s.pool.freeCount < cap
  | .insert _ | .sort _ => True

/-- The pool with an empty stack written as `1`, as the other helpers do. -/
def Pool.norm (p : Pool ρ cap) : Pool ρ cap :=
  { p with freeCount := if p.freeCount = 0 then 1 else p.freeCount }

/-- What a run keeps: up to the spelling of the empty stack the pool is good, and an issued handle
names a slot of the pool. -/
structure Kept (s : Sys ρ cap) : Prop where
  good : Good (⟨s.pool.norm, []⟩ : Sys ρ cap)
  handles : ∀ h ∈ s.issued, handleSlot h < cap ∧ dead (handleGen h) = false

namespace CapacityLemmas

/-! ## The count of live rows -/

theorem deadRow_iff (p : Pool ρ cap) (i : Nat) : p.deadRow i = true ↔ p.DeadAt i := by
  unfold Pool.deadRow Pool.DeadAt
  cases p.gen i with
  | none => simp
  | some g => simp

theorem deadRow_congr {p q : Pool ρ cap} {t : Nat} (h : p.gen t = q.gen t) :
    p.deadRow t = q.deadRow t := by
  unfold Pool.deadRow
  rw [h]

theorem live_le (p : Pool ρ cap) : p.live ≤ p.count.toNat := by
  have h := List.length_filter_le (fun i => !p.deadRow i) (List.range p.count.toNat)
  rwa [List.length_range] at h

theorem length_freeSlots {p : Pool ρ cap} (h1 : 1 ≤ p.freeCount) (h2 : p.freeCount ≤ cap) :
    p.freeSlots.length = p.freeCount.toNat - 1 := by
  unfold Pool.freeSlots
  rw [List.length_drop, List.length_take, Vector.length_toList]
  omega

/-- The dead rows are counted by the stack. -/
theorem live_add_free {s : Sys ρ cap} (hg : Good s) :
    s.pool.live + (s.pool.freeCount.toNat - 1) = s.pool.count.toNat := by
  have hlen : ((List.range s.pool.count.toNat).filter fun i => s.pool.deadRow i).length =
      s.pool.freeSlots.length := by
    have hperm : (((List.range s.pool.count.toNat).filter fun i => s.pool.deadRow i).map
        Int.ofNat).Perm s.pool.freeSlots := by
      rw [List.perm_ext_iff_of_nodup _ hg.rep.distinct]
      · intro t
        rw [hg.rep.exactly t, List.mem_map]
        constructor
        · rintro ⟨i, hi, rfl⟩
          rw [List.mem_filter, List.mem_range, deadRow_iff] at hi
          exact ⟨Int.natCast_nonneg i, by simp; omega, hi.2⟩
        · rintro ⟨h0, h1, hd⟩
          refine ⟨t.toNat, ?_, Int.toNat_of_nonneg h0⟩
          rw [List.mem_filter, List.mem_range, deadRow_iff, Int.toNat_of_nonneg h0]
          exact ⟨by omega, hd⟩
      · exact (List.nodup_range.filter _).map (fun a b h => Int.ofNat.inj h)
    rw [← hperm.length_eq, List.length_map]
  rw [← length_freeSlots hg.rep.free_pos hg.free_le, ← hlen, Pool.live, Nat.add_comm]
  have := List.length_eq_length_filter_add (l := List.range s.pool.count.toNat)
    fun i => s.pool.deadRow i
  rw [List.length_range] at this
  exact this.symm

/-! ## The spelling of the empty stack -/

theorem norm_of_pos {p : Pool ρ cap} (h : 1 ≤ p.freeCount) : p.norm = p := by
  have hne : p.freeCount ≠ 0 := by omega
  rw [Pool.norm, if_neg hne]

theorem norm_of_zero {p : Pool ρ cap} (h : p.freeCount = 0) : p.norm = { p with freeCount := 1 } := by
  rw [Pool.norm, if_pos h]

theorem chooseSlot_norm (p : Pool ρ cap) (ev : Int) (h : p.freeCount = 0) :
    chooseSlot p.norm ev =
      (chooseSlot p ev).map (Option.map fun c => { c with pool := c.pool.norm }) := by
  have hn := norm_of_zero h
  rw [hn]
  have h1 : ¬ (1 : Int) > 1 := by decide
  have h0 : ¬ (0 : Int) > 1 := by decide
  simp only [chooseSlot, h, h1, h0, if_false]
  split
  · split
    · simp [hn]
    · rfl
  · simp [hn]

theorem writeFields_norm (p : Pool ρ cap) (slot : Int) (row : ρ) :
    p.norm.writeFields slot row = (p.writeFields slot row).map Pool.norm := by
  unfold Pool.writeFields
  split <;> rfl

/-- An insert does not tell `0` and `1` apart. -/
theorem archeInsert_norm (p : Pool ρ cap) (row : ρ) (ev : Int) (h : p.freeCount = 0) :
    archeInsert p.norm row ev =
      (archeInsert p row ev).map fun o => { o with pool := o.pool.norm } := by
  unfold archeInsert
  rw [chooseSlot_norm p ev h]
  rcases chooseSlot p ev with _ | _ | c
  · rfl
  · rfl
  · simp only [Option.map_some, writeFields_norm]
    rcases c.pool.writeFields c.slot row with _ | p1
    · rfl
    · have hp2 : (if c.doIncr then { p1.norm with count := p1.norm.count + 1 } else p1.norm) =
          (if c.doIncr then { p1 with count := p1.count + 1 } else p1).norm := by
        split <;> rfl
      simp only [Option.map_some, hp2]
      generalize (if c.doIncr then { p1 with count := p1.count + 1 } else p1) = p2
      have hgen : p2.norm.gen c.slot = p2.gen c.slot := rfl
      rw [hgen]
      rcases p2.gen c.slot with _ | g
      · rfl
      · rfl

theorem good_forget {s : Sys ρ cap} (hg : Good s) : Good (⟨s.pool, []⟩ : Sys ρ cap) :=
  ⟨hg.rep, hg.free_le, hg.fresh, fun _ hmem => absurd hmem List.not_mem_nil⟩

theorem free_nonneg {p : Pool ρ cap} (hg : Good (⟨p.norm, []⟩ : Sys ρ cap)) : 0 ≤ p.freeCount := by
  by_contra hneg
  have hpos : 1 ≤ p.norm.freeCount := hg.rep.free_pos
  have hne : p.freeCount ≠ 0 := by omega
  rw [Pool.norm, if_neg hne] at hpos
  exact hneg (Int.le_trans (by decide) hpos)

/-! ## One call -/

theorem archeInsert_ok {p : Pool ρ cap} {row : ρ} {o : Outcome ρ cap}
    (h : archeInsert p row (-1) = some o) : o.ok = true ↔ 1 < p.freeCount ∨ p.count < cap := by
  have hslot (c : Choice ρ cap) (hc : chooseSlot p (-1) = some (some c)) : o.ok = true := by
    rw [archeInsert, hc] at h
    dsimp only at h
    split at h
    · cases h
    · split at h
      · cases h
      · cases h
        rfl
  by_cases hfree : 1 < p.freeCount
  · refine ⟨fun _ => .inl hfree, fun _ => ?_⟩
    cases hload : p.loadFree (p.freeCount - 1) with
    | none =>
      rw [archeInsert, chooseSlot, if_pos hfree] at h
      simp [hload] at h
    | some slot =>
      refine hslot ⟨{ p with freeCount := p.freeCount - 1 }, slot, false, false,
        [p.freeCount - 1]⟩ ?_
      rw [chooseSlot, if_pos hfree]
      simp only [hload]
  · by_cases hroom : p.count < cap
    · refine ⟨fun _ => .inr hroom, fun _ => hslot ⟨p, p.count, true, false, []⟩ ?_⟩
      rw [chooseSlot, if_neg hfree, if_neg (by omega)]
    · have hnone : chooseSlot p (-1) = some none := by
        rw [chooseSlot, if_neg hfree, if_pos (by omega), if_neg (by decide)]
      rw [archeInsert, hnone] at h
      cases h
      simp [hfree, hroom]

theorem kept_of_insert {s : Sys ρ cap} {o : Outcome ρ cap} (hk : Kept s)
    (hg : Good (⟨o.pool.norm, [o.handle]⟩ : Sys ρ cap)) :
    Kept (⟨o.pool, o.handle :: s.issued⟩ : Sys ρ cap) := by
  refine ⟨good_forget hg, ?_⟩
  intro h hmem
  rcases List.mem_cons.mp hmem with rfl | hold
  · have hh := hg.handles _ (List.mem_singleton.mpr rfl)
    exact ⟨lt_of_lt_of_le hh.1 hg.rep.count_le, hh.2⟩
  · exact hk.handles h hold

theorem insert_kept {s : Sys ρ cap} (hk : Kept s) (hcap : 1 ≤ cap) (hword : cap < 2 ^ 31) (row : ρ)
    {ev : Int} (hev : ev = -1 ∨ (0 ≤ ev ∧ ev < cap)) :
    ∃ o, archeInsert s.pool row ev = some o ∧
      Kept (⟨o.pool, o.handle :: s.issued⟩ : Sys ρ cap) := by
  obtain ⟨⟨o', ho', -⟩, hgood⟩ := PoolLemmas.insert_good hk.good hcap hword row hev
  have hafter : Good (⟨o'.pool, [o'.handle]⟩ : Sys ρ cap) := hgood o' ho'
  rcases Int.le_iff_lt_or_eq.mp (free_nonneg hk.good) with hpos | hzero
  · rw [norm_of_pos hpos] at ho'
    refine ⟨o', ho', kept_of_insert hk ?_⟩
    have hfree : 1 ≤ o'.pool.freeCount := hafter.rep.free_pos
    rw [norm_of_pos hfree]
    exact hafter
  · have hnorm := archeInsert_norm s.pool row ev hzero.symm
    rw [show archeInsert s.pool.norm row ev = some o' from ho'] at hnorm
    obtain ⟨o, ho, rfl⟩ := Option.map_eq_some_iff.mp hnorm.symm
    exact ⟨o, ho, kept_of_insert hk hafter⟩

theorem delete_kept {s : Sys ρ cap} (hk : Kept s) {handle : BitVec 64} (hissued : handle ∈ s.issued)
    (hr : Reclaims s (.delete handle)) {o : Outcome ρ cap}
    (ho : archeDelete s.pool handle = some o) : Kept (s.afterPool (.delete handle) o) := by
  by_cases hfrees : s.pool.gen (handleSlot handle) = some (handleGen handle) ∧
      handleGen handle ≠ 2147483647#32
  · obtain ⟨hslot, hpos, hroom⟩ := hr hfrees.1 hfrees.2
    have hgood := hk.good
    rw [norm_of_pos hpos] at hgood
    have hone : Good (⟨s.pool, [handle]⟩ : Sys ρ cap) := by
      refine ⟨hgood.rep, hgood.free_le, hgood.fresh, ?_⟩
      intro h hmem
      rw [List.mem_singleton.mp hmem]
      exact ⟨hslot, (hk.handles handle hissued).2⟩
    have hafter : Good (⟨o.pool, [handle]⟩ : Sys ρ cap) :=
      (PoolLemmas.delete_good hone (List.mem_singleton.mpr rfl) fun _ _ => hroom).2 o ho
    have hfree : 1 ≤ o.pool.freeCount := hafter.rep.free_pos
    refine ⟨?_, hk.handles⟩
    show Good (⟨o.pool.norm, []⟩ : Sys ρ cap)
    rw [norm_of_pos hfree]
    exact good_forget hafter
  · -- a stale handle and a last generation leave the pool as it is
    have hsame : o.pool = s.pool := by
      unfold archeDelete at ho
      dsimp only at ho
      split at ho
      · cases ho
      · next g hgen =>
        split at ho
        · cases ho
          rfl
        · next hstale =>
          split at ho
          · cases ho
            rfl
          · next hlast =>
            rw [not_not] at hstale
            rw [hstale] at hfrees
            exact absurd ⟨hgen, hlast⟩ hfrees
    refine ⟨?_, hk.handles⟩
    show Good (⟨o.pool.norm, []⟩ : Sys ρ cap)
    rw [hsame]
    exact hk.good

theorem gen_sortTrim (p : Pool ρ cap) (rows : Vector ρ cap) (t : Int) :
    (p.sortTrim rows).gen t = if t < p.count then (p.gen t).map fun _ => 0#32 else p.gen t := by
  unfold Pool.gen Pool.sortTrim
  by_cases h0 : 0 ≤ t
  · rw [if_pos h0, if_pos h0]
    simp only [Vector.getElem?_mapIdx, Int.toNat_of_nonneg h0]
    cases p.genCounters[t.toNat]? with
    | none => simp
    | some g => split <;> rfl
  · rw [if_neg h0, if_neg h0]
    simp

theorem sort_kept {s : Sys ρ cap} (hk : Kept s) (hcap : 1 ≤ cap) (rows : Vector ρ cap) :
    Kept (⟨s.pool.sortTrim rows, s.issued⟩ : Sys ρ cap) := by
  have hcount : s.pool.count ≤ cap := hk.good.rep.count_le
  have hcount0 : 0 ≤ s.pool.count := hk.good.rep.count_nonneg
  have hnodead : ∀ t, ¬ (s.pool.sortTrim rows).DeadAt t := by
    rintro t ⟨g, hgen, hd⟩
    rw [gen_sortTrim] at hgen
    split at hgen
    · obtain ⟨_, -, rfl⟩ := Option.map_eq_some_iff.mp hgen
      exact absurd hd (by decide)
    · next hge => exact hk.good.fresh t (Int.not_lt.mp hge) ⟨g, hgen, hd⟩
  have hempty : (s.pool.sortTrim rows).norm.freeSlots = [] := PoolLemmas.freeSlots_of_one rfl
  have hlive := live_le s.pool
  refine ⟨⟨⟨?_, ?_, ?_, ?_, ?_⟩, ?_, ?_, ?_⟩, hk.handles⟩
  · exact Int.natCast_nonneg _
  · show (s.pool.live : Int) ≤ cap
    omega
  · exact Int.le_refl 1
  · show (s.pool.sortTrim rows).norm.freeSlots.Nodup
    rw [hempty]
    exact List.nodup_nil
  · intro t
    show t ∈ (s.pool.sortTrim rows).norm.freeSlots ↔ _
    rw [hempty]
    simp only [List.not_mem_nil, false_iff]
    rintro ⟨-, -, hd⟩
    exact hnodead t hd
  · show (1 : Int) ≤ cap
    omega
  · intro t _
    exact hnodead t
  · intro h hmem
    exact absurd hmem List.not_mem_nil

theorem capacityKept_of_kept {s : Sys ρ cap} (hk : Kept s) (hcap : 1 ≤ cap) (hword : cap < 2 ^ 31) :
    CapacityKept s.pool := by
  intro row
  obtain ⟨o, ho, -⟩ := insert_kept hk hcap hword row (Or.inl rfl)
  refine ⟨o, ho, ?_⟩
  rw [archeInsert_ok ho]
  have hsum := live_add_free hk.good
  have hlive : s.pool.norm.live = s.pool.live := rfl
  have hcount : s.pool.norm.count = s.pool.count := rfl
  have hc0 : 0 ≤ s.pool.count := hk.good.rep.count_nonneg
  have hcle : s.pool.count ≤ cap := hk.good.rep.count_le
  rcases Int.le_iff_lt_or_eq.mp (free_nonneg hk.good) with hpos | hzero
  · have hfree : s.pool.norm.freeCount = s.pool.freeCount := by rw [norm_of_pos hpos]
    simp only [hlive, hcount, hfree] at hsum
    omega
  · have hfree : s.pool.norm.freeCount = 1 := by rw [norm_of_zero hzero.symm]
    simp only [hlive, hcount, hfree] at hsum
    omega

theorem kept_start (hcap : 1 ≤ cap) (zero : ρ) {length : Int} (h0 : 0 ≤ length)
    (h1 : length ≤ cap) : Kept (Sys.start cap zero length) :=
  ⟨PoolLemmas.good_start hcap zero h0 h1, fun _ hmem => absurd hmem List.not_mem_nil⟩

theorem step_kept {s t : Sys ρ cap} {op : PoolOp ρ cap} (hk : Kept s) (hcap : 1 ≤ cap)
    (hword : cap < 2 ^ 31) (hstep : s.PoolStep op t) (hr : Reclaims s op) : Kept t := by
  obtain ⟨hadm, o, ho, -, rfl⟩ := hstep
  cases op with
  | insert row =>
    obtain ⟨o', ho', hkept⟩ := insert_kept hk hcap hword row (Or.inl rfl)
    have ho2 : archeInsert s.pool row (-1) = some o := ho
    rw [ho'] at ho2
    cases ho2
    exact hkept
  | delete handle => exact delete_kept hk hadm hr ho
  | sort rows =>
    cases ho
    exact sort_kept hk hcap rows

end CapacityLemmas

/-- In every run in which each delete that frees a row reclaims it, a pool accepts an insert exactly
while it has fewer live rows than `cap`. -/
theorem insert_ok_iff (hcap : 1 ≤ cap) (hword : cap < 2 ^ 31) (zero : ρ) (length : Int)
    (h0 : 0 ≤ length) (h1 : length ≤ cap) {ops : List (PoolOp ρ cap)} {s : Sys ρ cap}
    (hrun : Run (Guarded Sys.PoolStep Reclaims) (Sys.start cap zero length) ops s) :
    CapacityKept s.pool := by
  have hk : Kept s := by
    refine Run.inv Kept (CapacityLemmas.kept_start hcap zero h0 h1) ?_ hrun
    rintro a op b ha ⟨hstep, hr⟩
    exact CapacityLemmas.step_kept ha hcap hword hstep hr
  exact CapacityLemmas.capacityKept_of_kept hk hcap hword

/-- A pool of two rows: two inserts, a delete of the first row and a sort. -/
theorem insert_ok_iff_two :
    CapacityKept (⟨#v[(), ()], 1, #v[0, 0], 0, #v[0#32, 0#32]⟩ : Pool Unit 2) := by
  have h1 : Run (Guarded Sys.PoolStep Reclaims) (Sys.start 2 () 0) [.insert ()]
      ⟨⟨#v[(), ()], 1, #v[0, 0], 1, #v[1#32, 0#32]⟩, [packHandle 0 1#32]⟩ :=
    Run.snoc Run.nil ⟨⟨trivial, _, rfl, rfl, rfl⟩, trivial⟩
  have h2 : Run (Guarded Sys.PoolStep Reclaims) (Sys.start 2 () 0) ([.insert ()] ++ [.insert ()])
      ⟨⟨#v[(), ()], 2, #v[0, 0], 1, #v[1#32, 1#32]⟩, [packHandle 1 1#32, packHandle 0 1#32]⟩ :=
    Run.snoc h1 ⟨⟨trivial, _, rfl, rfl, rfl⟩, trivial⟩
  have h3 : Run (Guarded Sys.PoolStep Reclaims) (Sys.start 2 () 0)
      ([.insert ()] ++ [.insert ()] ++ [.delete (packHandle 0 1#32)])
      ⟨⟨#v[(), ()], 2, #v[0, 0], 2, #v[2147483650#32, 1#32]⟩,
        [packHandle 1 1#32, packHandle 0 1#32]⟩ :=
    Run.snoc h2 ⟨⟨by simp [Sys.AdmitsPool], _, rfl, rfl, rfl⟩, fun _ _ => by decide⟩
  have h4 : Run (Guarded Sys.PoolStep Reclaims) (Sys.start 2 () 0)
      ([.insert ()] ++ [.insert ()] ++ [.delete (packHandle 0 1#32)] ++ [.sort #v[(), ()]])
      ⟨⟨#v[(), ()], 1, #v[0, 0], 0, #v[0#32, 0#32]⟩, [packHandle 1 1#32, packHandle 0 1#32]⟩ :=
    Run.snoc h3 ⟨⟨trivial, _, rfl, rfl, rfl⟩, trivial⟩
  exact insert_ok_iff (by decide) (by decide) () 0 (by decide) (by decide) h4

/-- What a pool is meant to keep along every run. -/
def CapacityAlways : Prop :=
  ∀ (cap : Nat), 1 ≤ cap → cap < 2 ^ 31 → ∀ (length : Int), 0 ≤ length → length ≤ cap →
    ∀ (ops : List (PoolOp Unit cap)) (s : Sys Unit cap),
      Run Sys.PoolStep (Sys.start cap () length) ops s → CapacityKept s.pool

/-- `[1]P(0)`: a sort, an insert and the delete of the row store the free slot in cell `0`. The pool
is empty and refuses the next insert. -/
theorem not_capacityAlways : ¬ CapacityAlways := by
  intro h
  have h1 : Run Sys.PoolStep (Sys.start 1 () 0) [.sort #v[()]] ⟨⟨#v[()], 0, #v[0], 0, #v[0#32]⟩, []⟩ :=
    Run.snoc Run.nil ⟨trivial, _, rfl, rfl, rfl⟩
  have h2 : Run Sys.PoolStep (Sys.start 1 () 0) ([.sort #v[()]] ++ [.insert ()])
      ⟨⟨#v[()], 1, #v[0], 0, #v[1#32]⟩, [packHandle 0 1#32]⟩ :=
    Run.snoc h1 ⟨trivial, _, rfl, rfl, rfl⟩
  have h3 : Run Sys.PoolStep (Sys.start 1 () 0)
      ([.sort #v[()]] ++ [.insert ()] ++ [.delete (packHandle 0 1#32)])
      ⟨⟨#v[()], 1, #v[0], 1, #v[2147483650#32]⟩, [packHandle 0 1#32]⟩ :=
    Run.snoc h2 ⟨List.mem_singleton.mpr rfl, _, rfl, rfl, rfl⟩
  obtain ⟨o, ho, hok⟩ := h 1 (by decide) (by decide) 0 (by decide) (by decide) _ _ h3 ()
  have hrefused : o.ok = false := by
    cases ho
    rfl
  rw [hrefused] at hok
  exact absurd (hok.mpr (by decide)) (by decide)

end Arche.Codegen
