import Arche.Codegen.WriteFields
import Arche.Lib.Windows
import Mathlib.Algebra.Order.Ring.Int

/-!
# The rows that the inspector lists

A request `ROWS pool start want` is answered with the live rows from number `start` on, `want` of
them or as many as fit the blob. A row is its slot, its generation and the bytes of its columns.
`slot_is_free` takes for dead what stands in `free_list[1 .. free_count-1]`; the loops of a program
look at the dead bit of the generation.

* A pool is static and registered, with its first `ARCHE_INSPECT_MAX_FIELDS` columns.
* Request `i` starts where the reply before it has ended, and asks for `sizes i` rows.

1. `rowsReply_eq`: a reply is a window of the rows that are not on the free list.
2. `inspects_live`: in every run whose deletes reach a cell of the free list that the inspector looks
   at, the replies up to the first empty one list the live rows.
3. `not_inspects_live`: a sort leaves `free_count` at `0`, and the row that is freed next is listed.
-/

namespace Arche.Runtime.InspectRows

open Arche.Lib Arche.Codegen

variable {S : Shape} {cap : Nat}

/-! ## A row as bytes -/

/-- `ARCHE_INSPECT_MAX_FIELDS`. -/
def maxFields : Nat := 64

/-- The bytes of a value in memory. -/
def bytes {w : Nat} (n : Nat) (v : BitVec w) : List (BitVec 8) :=
  (List.range n).map fun k => (v >>> (8 * k)).setWidth 8

/-- `llvm_type_sizeof` of the type of a column. -/
def elemSize (c : Fin S.ncol) : Nat := (S.col c).type.bits / 8

/-- The columns that `arche_inspect_field` takes. -/
def fields (S : Shape) : List (Fin S.ncol) := (List.finRange S.ncol).take maxFields

/-- `row_bytes`. -/
def rowBytes (S : Shape) : Nat :=
  8 + 4 + ((fields S).map fun c => (S.col c).perRow * elemSize c).sum

/-- Byte `k` of a column. -/
def columnByte (p : Pool S.Row cap) (c : Fin S.ncol) (k : Nat) : BitVec 8 :=
  (p.slices (k / elemSize c) c >>> (8 * (k % elemSize c))).setWidth 8

/-- The `memcpy` from `cell_addr(p, sb, f, slot, 0)`. -/
def cellBytes (p : Pool S.Row cap) (slot : Nat) (c : Fin S.ncol) : List (BitVec 8) :=
  (List.range ((S.col c).perRow * elemSize c)).map fun k =>
    columnByte p c (slot * (S.col c).perRow * elemSize c + k)

/-- What is copied for one row. -/
def rowRecord (p : Pool S.Row cap) (slot : Nat) (g : BitVec 32) : List (BitVec 8) :=
  bytes 8 (BitVec.ofNat 64 slot) ++ bytes 4 g ++ (fields S).flatMap (cellBytes p slot)

/-! ## `ROWS` -/

/-- The loop of `slot_is_free`, with `rounds` entries left. -/
def freeLoop (p : Pool S.Row cap) (slot : Int) : Nat → Int → Option Bool
  | 0, _ => some false
  | rounds + 1, i =>
    match p.loadFree i with
    | none => none
    | some v => if v = slot then some true else freeLoop p slot rounds (i + 1)

def slotIsFree (p : Pool S.Row cap) (slot : Int) : Option Bool :=
  freeLoop p slot (p.freeCount - 1).toNat 1

structure Scan where
  liveIndex : Int
  nrows : Int
  blob : List (BitVec 8)

/-- The loop over the slots. `boff` is the length of what stands in the blob. -/
def scanRows (p : Pool S.Row cap) (start want : Int) (blobcap : Nat) :
    List Nat → Scan → Option Scan
  | [], s => some s
  | slot :: slots, s =>
    match slotIsFree p slot with
    | none => none
    | some true => scanRows p start want blobcap slots s
    | some false =>
      let idx := s.liveIndex
      let s := { s with liveIndex := idx + 1 }
      if idx < start then scanRows p start want blobcap slots s
      else if want ≥ 0 ∧ s.nrows ≥ want then some s
      else if s.blob.length + rowBytes S > blobcap then some s
      else
        match p.gen slot with
        | none => none
        | some g =>
          scanRows p start want blobcap slots
            { s with nrows := s.nrows + 1, blob := s.blob ++ rowRecord p slot g }

structure Reply where
  nrows : Int
  rowBytes : Nat
  blob : List (BitVec 8)

def rowsReply (p : Pool S.Row cap) (start want : Int) (blobcap : Nat) : Option Reply :=
  (scanRows p start want blobcap (List.range p.count.toNat) ⟨0, 0, []⟩).map fun s =>
    ⟨s.nrows, rowBytes S, s.blob⟩

/-! ## What the replies are to list -/

/-- Where request `i` starts. -/
def requestStart (p : Pool S.Row cap) (blobcap : Nat) (sizes : Nat → Int) : Nat → Option Int
  | 0 => some 0
  | i + 1 =>
    match requestStart p blobcap sizes i with
    | none => none
    | some start => (rowsReply p start (sizes i) blobcap).map fun r => start + r.nrows

/-- Reply `i`. -/
def reply (p : Pool S.Row cap) (blobcap : Nat) (sizes : Nat → Int) (i : Nat) : Option Reply :=
  match requestStart p blobcap sizes i with
  | none => none
  | some start => rowsReply p start (sizes i) blobcap

/-- The bytes of a row: its slot, its generation and its columns. -/
def rowImage (slot : Nat) (g : BitVec 32) (row : S.Row) : List (BitVec 8) :=
  bytes 8 (BitVec.ofNat 64 slot) ++ bytes 4 g ++
    (List.finRange S.ncol).flatMap fun c => (row c).toList.flatMap (bytes (elemSize c))

def ImageAt (p : Pool S.Row cap) (slot : Nat) (image : List (BitVec 8)) : Prop :=
  ∃ g row, p.gen slot = some g ∧ p.rows[slot]? = some row ∧ image = rowImage slot g row

/-- The replies up to the first empty one list the rows without a dead bit, in the order of their
slots. -/
def WindowsCover (p : Pool S.Row cap) : Prop :=
  ∀ blobcap, rowBytes S ≤ blobcap → ∀ sizes : Nat → Int, (∀ i, 1 ≤ sizes i) →
    ∃ (n : Nat) (replies : Nat → Reply) (images : List (List (BitVec 8))),
      (∀ i ≤ n, reply p blobcap sizes i = some (replies i)) ∧
      (∀ i < n, (replies i).nrows ≠ 0) ∧ (replies n).nrows = 0 ∧
      List.Forall₂ (ImageAt p) p.liveSlots images ∧
      (List.range n).flatMap (fun i => (replies i).blob) = images.flatten

/-- In every run of calls that meet `C`. -/
def InspectsLive (S : Shape) (cap : Nat) (C : Sys S.Row cap → PoolCall S → Prop) : Prop :=
  ∀ (zero : S.Row) (length : Int), 0 ≤ length → length ≤ cap →
    ∀ (calls : List (PoolCall S)) (s : Sys S.Row cap),
      Run (Guarded Sys.CallStep C) (Sys.start cap zero length) calls s → WindowsCover s.pool

/-! ## Rows -/

theorem elemSize_pos (c : Fin S.ncol) : 0 < elemSize c := by
  unfold elemSize
  cases (S.col c).type with
  | int w _ => cases w <;> simp [ElemType.bits, IntWidth.bits]
  | _ => decide

theorem length_bytes {w : Nat} (n : Nat) (v : BitVec w) : (bytes n v).length = n := by
  simp [bytes]

theorem map_range_mul {α : Type} (f : Nat → α) (m n : Nat) :
    (List.range (m * n)).map f =
      (List.range m).flatMap fun j => (List.range n).map fun i => f (j * n + i) := by
  induction m with
  | zero => simp
  | succ m ih =>
    rw [Nat.succ_mul, List.range_add, List.map_append, ih, List.range_succ, List.flatMap_append,
      List.flatMap_singleton, List.map_map]
    rfl

/-- The bytes copied for a column are those of the row's elements. -/
theorem cellBytes_eq {p : Pool S.Row cap} {slot : Nat} {row : S.Row}
    (hrow : p.rows[slot]? = some row) (c : Fin S.ncol) :
    cellBytes p slot c = (row c).toList.flatMap (bytes (elemSize c)) := by
  have hpos := elemSize_pos c
  have helems : (row c).toList =
      (List.range (S.col c).perRow).map fun j => p.slices (slot * (S.col c).perRow + j) c := by
    apply List.ext_getElem
    · simp
    · intro j hj _
      have hj' : j < (S.col c).perRow := by simpa using hj
      simp [PoolSortLemmas.slices_row hrow c hj']
  rw [cellBytes, map_range_mul, helems, List.flatMap_map]
  refine List.flatMap_congr fun j _ => ?_
  rw [bytes]
  refine List.map_congr_left fun i hi => ?_
  have hi' : i < elemSize c := List.mem_range.mp hi
  have hflat : slot * (S.col c).perRow * elemSize c + (j * elemSize c + i) =
      elemSize c * (slot * (S.col c).perRow + j) + i := by
    rw [← Nat.add_assoc, ← Nat.add_mul, Nat.mul_comm]
  rw [columnByte, hflat, Nat.mul_add_div hpos, Nat.mul_add_mod, Nat.div_eq_of_lt hi',
    Nat.mod_eq_of_lt hi', Nat.add_zero]

theorem length_rowRecord (p : Pool S.Row cap) (slot : Nat) (g : BitVec 32) :
    (rowRecord p slot g).length = rowBytes S := by
  rw [rowRecord, List.length_append, List.length_append, length_bytes, length_bytes,
    List.length_flatMap, rowBytes]
  simp [cellBytes]

theorem rowBytes_pos (S : Shape) : 0 < rowBytes S := by
  unfold rowBytes
  omega

theorem rowRecord_eq (hcols : S.ncol ≤ maxFields) {p : Pool S.Row cap} {slot : Nat} {row : S.Row}
    (hrow : p.rows[slot]? = some row) (g : BitVec 32) :
    rowRecord p slot g = rowImage slot g row := by
  have hfields : fields S = List.finRange S.ncol :=
    List.take_of_length_le (by rwa [List.length_finRange])
  rw [rowRecord, rowImage, hfields]
  congr 1
  exact List.flatMap_congr fun c _ => cellBytes_eq hrow c

/-! ## One reply -/

/-- `slot_is_free` is membership in the stack. -/
theorem freeLoop_eq {p : Pool S.Row cap} (slot : Int) {n i : Nat} (hcap : i + n ≤ cap) :
    freeLoop p slot n i = some (decide (slot ∈ (p.freeList.toList.drop i).take n)) := by
  induction n generalizing i with
  | zero => simp [freeLoop]
  | succ n ih =>
    have hi : i < cap := by omega
    have hload : p.loadFree i = some p.freeList[i] := by
      have hend : ((i : Nat) : Int) ≠ cap := by omega
      have hstart : ((i : Nat) : Int) ≠ -1 := by omega
      have hnonneg : (0 : Int) ≤ (i : Nat) := Int.natCast_nonneg i
      rw [Pool.loadFree, if_neg hend, if_neg hstart, if_pos hnonneg, Int.toNat_natCast,
        Vector.getElem?_eq_getElem hi]
    have hlen : i < p.freeList.toList.length := by simpa using hi
    have hdrop : p.freeList.toList.drop i = p.freeList[i] :: p.freeList.toList.drop (i + 1) := by
      rw [List.drop_eq_getElem_cons hlen]
      simp
    rw [freeLoop, hload, hdrop, List.take_succ_cons]
    dsimp only
    by_cases hv : p.freeList[i] = slot
    · simp [hv]
    · have hrest := ih (i := i + 1) (by omega)
      rw [if_neg hv]
      push_cast at hrest
      rw [hrest]
      simp [Ne.symm hv]

/-- Which rows are listed, and which of those a window of `want` rows holds. -/
theorem scanRows_eq {p : Pool S.Row cap} (start : Int) {want : Int} (hwant : 0 ≤ want)
    (blobcap : Nat) {free : Nat → Bool} {gens : Nat → BitVec 32} {slots : List Nat}
    (hfree : ∀ slot ∈ slots, slotIsFree p slot = some (free slot))
    (hgens : ∀ slot ∈ slots, p.gen slot = some (gens slot)) (s : Scan) (hn : 0 ≤ s.nrows)
    (hblob : s.blob.length = s.nrows.toNat * rowBytes S) :
    ∃ i, scanRows p start want blobcap slots s =
      let w := ((slots.filter fun slot => !free slot).drop (start - s.liveIndex).toNat).take
        (min want.toNat (blobcap / rowBytes S) - s.nrows.toNat)
      some ⟨i, s.nrows + w.length, s.blob ++ w.flatMap fun slot => rowRecord p slot (gens slot)⟩ := by
  induction slots generalizing s with
  | nil => exact ⟨s.liveIndex, by simp [scanRows]⟩
  | cons slot slots ih =>
    have hrest := ih (fun t ht => hfree t (List.mem_cons_of_mem slot ht))
      fun t ht => hgens t (List.mem_cons_of_mem slot ht)
    have hslot := hfree slot List.mem_cons_self
    cases hfr : free slot with
    | true =>
      rw [hfr] at hslot
      obtain ⟨i, hi⟩ := hrest s hn hblob
      refine ⟨i, ?_⟩
      rw [scanRows, hslot, List.filter_cons_of_neg (by simp [hfr])]
      exact hi
    | false =>
      rw [hfr] at hslot
      rw [List.filter_cons_of_pos (by simp [hfr])]
      by_cases hbefore : s.liveIndex < start
      · -- The row is in front of the window.
        obtain ⟨i, hi⟩ := hrest { s with liveIndex := s.liveIndex + 1 } hn hblob
        have hdrop : (start - s.liveIndex).toNat = (start - (s.liveIndex + 1)).toNat + 1 := by
          omega
        refine ⟨i, ?_⟩
        rw [scanRows, hslot, hdrop, List.drop_succ_cons]
        dsimp only
        rw [if_pos hbefore]
        exact hi
      have hdrop : (start - s.liveIndex).toNat = 0 := by omega
      rw [hdrop, List.drop_zero]
      by_cases hroom : s.nrows.toNat < min want.toNat (blobcap / rowBytes S)
      · -- The row is the next of the window.
        obtain ⟨hmore, hfits⟩ := Nat.lt_min.mp hroom
        have hbytes : s.blob.length + rowBytes S ≤ blobcap := by
          rw [hblob, ← Nat.succ_mul]
          exact (Nat.le_div_iff_mul_le (rowBytes_pos S)).mp hfits
        have hlen : (s.blob ++ rowRecord p slot (gens slot)).length =
            (s.nrows + 1).toNat * rowBytes S := by
          rw [List.length_append, length_rowRecord, hblob, Int.toNat_add hn (by decide),
            Nat.add_mul]
          simp
        obtain ⟨i, hi⟩ := hrest ⟨s.liveIndex + 1, s.nrows + 1,
          s.blob ++ rowRecord p slot (gens slot)⟩ (by dsimp only; omega) hlen
        have hdrop' : (start - (s.liveIndex + 1)).toNat = 0 := by omega
        have htake : min want.toNat (blobcap / rowBytes S) - s.nrows.toNat =
            min want.toNat (blobcap / rowBytes S) - (s.nrows + 1).toNat + 1 := by
          omega
        refine ⟨i, ?_⟩
        rw [scanRows, hslot, htake, List.take_succ_cons]
        dsimp only
        rw [if_neg hbefore, if_neg (by omega), if_neg (by omega),
          hgens slot List.mem_cons_self]
        dsimp only
        rw [hi]
        dsimp only
        rw [hdrop', List.drop_zero, List.flatMap_cons, List.append_assoc, List.length_cons]
        push_cast
        rw [Int.add_assoc, Int.add_comm 1]
      · -- The window is full.
        have htake : min want.toNat (blobcap / rowBytes S) - s.nrows.toNat = 0 := by omega
        refine ⟨s.liveIndex + 1, ?_⟩
        rw [scanRows, hslot, htake, List.take_zero]
        dsimp only
        rw [if_neg hbefore]
        by_cases hmore : want ≥ 0 ∧ s.nrows ≥ want
        · rw [if_pos hmore]
          simp
        · have hfits : ¬ s.nrows.toNat < blobcap / rowBytes S := by
            intro hlt
            exact hroom (Nat.lt_min.mpr ⟨by omega, hlt⟩)
          have hbytes : s.blob.length + rowBytes S > blobcap := by
            by_contra hle
            rw [hblob, ← Nat.succ_mul, not_lt] at hle
            exact hfits ((Nat.le_div_iff_mul_le (rowBytes_pos S)).mpr hle)
          rw [if_neg hmore, if_pos hbytes]
          simp

theorem slotIsFree_eq {p : Pool S.Row cap} (hcap : 1 ≤ cap) (hfree : p.freeCount ≤ cap)
    (slot : Int) : slotIsFree p slot = some (decide (slot ∈ p.freeSlots)) := by
  have hrounds : (p.freeCount - 1).toNat = p.freeCount.toNat - 1 := by omega
  have hloop := freeLoop_eq (p := p) slot (n := p.freeCount.toNat - 1) (i := 1) (by omega)
  rw [slotIsFree, hrounds, Pool.freeSlots, List.drop_take]
  exact hloop

/-! ## The replies of a pool in use -/

/-- The record of a row below `count`. -/
def record (p : Pool S.Row cap) (slot : Nat) : List (BitVec 8) :=
  rowRecord p slot ((p.gen slot).getD 0)

section Cover

variable {s : Sys S.Row cap} (hk : Kept s) (hcap : 1 ≤ cap)
include hk hcap

/-- In a pool that a run keeps the inspector and the dead bits agree. -/
theorem slotIsFree_kept {slot : Nat} (hslot : slot < s.pool.count.toNat) :
    slotIsFree s.pool slot = some (s.pool.deadRow slot) := by
  have hcount : s.pool.norm.count = s.pool.count := rfl
  have hfree : s.pool.norm.freeCount = if s.pool.freeCount = 0 then 1 else s.pool.freeCount := rfl
  have hle := hk.good.free_le
  have hpos := hk.good.rep.free_pos
  have hsame : s.pool.norm.freeSlots = s.pool.freeSlots := by
    by_cases hzero : s.pool.freeCount = 0
    · rw [PoolLemmas.freeSlots_of_one (by rw [hfree, if_pos hzero]), Pool.freeSlots, hzero]
      rfl
    · rw [Pool.freeSlots, Pool.freeSlots, hfree, if_neg hzero]
      rfl
  have hmem := hk.good.rep.exactly slot
  dsimp only at hle hpos hmem
  rw [slotIsFree_eq hcap (by split at hfree <;> omega)]
  have hdead : ((slot : Int) ∈ s.pool.freeSlots) ↔ s.pool.deadRow slot = true := by
    rw [← hsame, hmem, CapacityLemmas.deadRow_iff]
    constructor
    · exact fun h => h.2.2
    · exact fun h => ⟨by omega, by omega, h⟩
  simp [hdead]

omit hcap in
theorem gen_kept {slot : Nat} (hslot : slot < s.pool.count.toNat) :
    slot < cap ∧ s.pool.gen slot = some ((s.pool.gen slot).getD 0) := by
  have hle : s.pool.count ≤ cap := hk.good.rep.count_le
  have hlt : slot < cap := by omega
  refine ⟨hlt, ?_⟩
  have hgen : s.pool.gen slot = some s.pool.genCounters[slot] := by
    rw [Pool.gen, if_pos (Int.natCast_nonneg slot), Int.toNat_natCast,
      Vector.getElem?_eq_getElem hlt]
  rw [hgen, Option.getD_some]

/-- A reply is a window of the live rows. -/
theorem rowsReply_eq (start : Nat) {want : Int} (hwant : 0 ≤ want) (blobcap : Nat) :
    rowsReply s.pool start want blobcap =
      let w := (s.pool.liveSlots.drop start).take (min want.toNat (blobcap / rowBytes S))
      some ⟨w.length, rowBytes S, w.flatMap (record s.pool)⟩ := by
  obtain ⟨i, hi⟩ := scanRows_eq (p := s.pool) start hwant blobcap
    (fun slot hslot => slotIsFree_kept hk hcap (List.mem_range.mp hslot))
    (fun slot hslot => (gen_kept hk (List.mem_range.mp hslot)).2) ⟨0, 0, []⟩
    (Int.le_refl 0) (by simp)
  rw [rowsReply, hi]
  simp only [Int.sub_zero, Int.toNat_natCast, Int.toNat_zero, Nat.sub_zero, Int.zero_add,
    List.nil_append, Option.map_some]
  rfl

/-- The windows that a sequence of requests asks for. -/
theorem requestStart_eq (blobcap : Nat) {sizes : Nat → Int} (hsizes : ∀ i, 1 ≤ sizes i) (i : Nat) :
    requestStart s.pool blobcap sizes i = some ((windowStart s.pool.liveSlots
      (fun i => min (sizes i).toNat (blobcap / rowBytes S)) i : Nat) : Int) := by
  induction i with
  | zero => rfl
  | succ i ih =>
    have hwant : 0 ≤ sizes i := le_trans (by decide) (hsizes i)
    rw [requestStart, ih]
    dsimp only
    rw [rowsReply_eq hk hcap _ hwant, windowStart_succ, window, Option.map_some, Int.natCast_add]

theorem reply_eq (blobcap : Nat) {sizes : Nat → Int} (hsizes : ∀ i, 1 ≤ sizes i) (i : Nat) :
    reply s.pool blobcap sizes i =
      let w := window s.pool.liveSlots (fun i => min (sizes i).toNat (blobcap / rowBytes S)) i
      some ⟨w.length, rowBytes S, w.flatMap (record s.pool)⟩ := by
  have hwant : 0 ≤ sizes i := le_trans (by decide) (hsizes i)
  rw [reply, requestStart_eq hk hcap blobcap hsizes]
  exact rowsReply_eq hk hcap _ hwant blobcap

theorem windowsCover_kept (hcols : S.ncol ≤ maxFields) : WindowsCover s.pool := by
  intro blobcap hfits sizes hsizes
  let size : Nat → Nat := fun i => min (sizes i).toNat (blobcap / rowBytes S)
  have hpos : ∀ i, 0 < size i := by
    intro i
    have hone := hsizes i
    exact Nat.lt_min.mpr ⟨by omega, Nat.div_pos hfits (rowBytes_pos S)⟩
  obtain ⟨n, hend, hbefore, hcover⟩ := windows_cover (l := s.pool.liveSlots) hpos
  refine ⟨n, fun i => ⟨(window s.pool.liveSlots size i).length, rowBytes S,
    (window s.pool.liveSlots size i).flatMap (record s.pool)⟩, s.pool.liveSlots.map (record s.pool),
    fun i _ => reply_eq hk hcap blobcap hsizes i, ?_, ?_, ?_, ?_⟩
  · intro i hi hzero
    have hlen : (window s.pool.liveSlots size i).length = 0 := Int.natCast_eq_zero.mp hzero
    exact hbefore i hi (List.length_eq_zero_iff.mp hlen)
  · simp [hend]
  · rw [List.forall₂_map_right_iff, List.forall₂_same]
    intro slot hslot
    have hbelow : slot < s.pool.count.toNat := List.mem_range.mp (List.mem_of_mem_filter hslot)
    obtain ⟨hlt, hgen⟩ := gen_kept hk hbelow
    have hrow : s.pool.rows[slot]? = some s.pool.rows[slot] := Vector.getElem?_eq_getElem hlt
    exact ⟨_, _, hgen, hrow, rowRecord_eq hcols hrow _⟩
  · dsimp only
    rw [← List.flatMap_assoc, hcover, List.flatMap_def]

end Cover

/-! ## The results -/

/-- Where no deleted slot gets lost, the inspector lists the rows that the program loops over. -/
theorem inspects_live (hcap : 1 ≤ cap) (hword : cap < 2 ^ 31) (hcols : S.ncol ≤ maxFields) :
    InspectsLive S cap Sys.Reclaimed := by
  intro zero length h0 h1 calls s hrun
  have hk : Kept s := WriteLemmas.run_kept hcap hword h0 h1 (fun _ _ h => h) hrun
  exact windowsCover_kept hk hcap hcols

/-- A pool of bytes. -/
def cells : Shape := ⟨1, fun _ => ⟨.char, 1⟩⟩

theorem inspects_live_cells : InspectsLive cells 2 Sys.Reclaimed :=
  inspects_live (by decide) (by decide) (by decide)

/-- The empty pool is sorted, then a row is inserted and deleted. -/
def sortedCalls : List (PoolCall cells) :=
  [] ++ [.sort ⟨0, by decide⟩ false] ++ [.insert (WriteLemmas.zeroArgs cells) (-1)] ++ [.delete 4294967296#64]

theorem not_inspects_live : ¬ InspectsLive cells 2 (fun _ _ => True) := by
  intro h
  have hrun : ∃ s : Sys cells.Row 2,
      Run (Guarded Sys.CallStep fun _ _ => True)
        (Sys.start 2 (fun _ => Vector.replicate _ 0) 0) sortedCalls s ∧
      s.pool.liveSlots = [] ∧
      (rowsReply s.pool 0 1 13).map (fun r => (r.nrows, r.blob.length)) = some (1, 13) :=
    ⟨_, Run.snoc (Run.snoc (Run.snoc Run.nil ⟨⟨_, rfl, rfl⟩, trivial⟩)
      ⟨⟨.inl rfl, _, rfl, rfl⟩, trivial⟩) ⟨⟨by decide, _, rfl, rfl, rfl⟩, trivial⟩, rfl, rfl⟩
  obtain ⟨s, hrun, hlive, hreply⟩ := hrun
  obtain ⟨n, replies, images, hreplies, hbefore, hend, himages, hcover⟩ :=
    h _ 0 (by decide) (by decide) _ s hrun 13 (by decide) (fun _ => 1) (fun _ => Int.le_refl 1)
  obtain ⟨r, hr, hfirst⟩ := Option.map_eq_some_iff.mp hreply
  have hzero : replies 0 = r := by
    have h0 : rowsReply s.pool 0 1 13 = some (replies 0) := hreplies 0 (Nat.zero_le n)
    exact Option.some.inj (h0.symm.trans hr)
  obtain ⟨hone, hlen⟩ := Prod.mk.inj hfirst
  have hn : 0 < n := by
    refine Nat.pos_of_ne_zero fun hn => ?_
    rw [hn, hzero, hone] at hend
    cases hend
  rw [hlive, List.forall₂_nil_left_iff] at himages
  rw [himages, List.flatten_nil, List.flatMap_eq_nil_iff] at hcover
  have hblob := hcover 0 (List.mem_range.mpr hn)
  rw [hzero] at hblob
  rw [hblob] at hlen
  cases hlen

end Arche.Runtime.InspectRows
