import Arche.Codegen.PoolCapacity
import Arche.Codegen.SortKey
import Mathlib.Data.Finset.Card
import Mathlib.Data.Finset.Range

/-!
# Sorting a pool

`emit_sort` on a static pool: the row numbers below `count` are listed, the live ones
first; the live part of the list is sorted by the key column; the columns are permuted
in place, one cycle of the list after the other, a visited entry having its sign
bit set; and the pool is trimmed to the live rows.

A column of type `[N]T` has `N` elements a row, stored one row after the other. The
permutation moves element `k` of every column, whatever its type, and reads the key
as element `k` of the key column: with `N ≥ 2` these are not the elements of row `k`.

* `emitSort_sorts`: in every state that inserts, deletes and sorts lead to, the live
  rows after a sort are those before it, in the order of the key and with equal keys
  in their previous order, if the keys are numbers and either every column has one
  element a row or no row has to move.
* `not_sortsRows`: two rows with a text of two characters that exchange places and
  lose their texts.
-/

namespace Arche.Codegen

open Arche.Lib
open Arche.Lib.Cells
open Arche.Codegen.IndexSort

/-! ## Shapes and rows -/

/-- A column; `perRow` is `field_total_elements` of its type. -/
structure Column where
  type : ElemType
  perRow : Nat
deriving DecidableEq, Repr

/-- The columns of an archetype. -/
structure Shape where
  ncol : Nat
  col : Fin ncol → Column

namespace Shape

variable (S : Shape)

abbrev Elem (c : Fin S.ncol) : Type := BitVec (S.col c).type.bits

abbrev Row : Type := (c : Fin S.ncol) → Vector (S.Elem c) (S.col c).perRow

/-- One element of every column. -/
abbrev Slice : Type := (c : Fin S.ncol) → S.Elem c

/-- Every column has one element a row. -/
def Scalar : Prop := ∀ c, (S.col c).perRow = 1

instance : Decidable S.Scalar := inferInstanceAs (Decidable (∀ c, (S.col c).perRow = 1))

end Shape

variable {S : Shape} {cap : Nat}

/-- The columns as arrays: `getelementptr T, T* %col, i64 k` for every column. -/
def Pool.slices (p : Pool S.Row cap) : Cells S.Slice := fun k c =>
  match p.rows[k / (S.col c).perRow]? with
  | some row => (row c)[k % (S.col c).perRow]?.getD 0
  | none => 0

/-- The rows that columns hold. -/
def rowsOf (xs : Cells S.Slice) : Vector S.Row cap :=
  Vector.ofFn fun i c => Vector.ofFn fun j => xs (i * (S.col c).perRow + j) c

/-! ## The sort -/

/-- One pass over the slots: those in `take` are appended at the cursor. -/
def appendSlots (take : Nat → Bool) (count : Nat) (s : Cells Nat × Nat) : Cells Nat × Nat :=
  (List.range count).foldl (fun s i => if take i then (s.1.store s.2 i, s.2 + 1) else s) s

/-- `or i64 %v, -9223372036854775808` -/
def setVisited (v : Int) : Int := if v < 0 then v else v - 9223372036854775808

/-- The rest of a cycle from slot `cur` on; `tmp` is what stood in its first slot `s`. The count of
rounds bounds the walk, and an entry that was visited before is no slot to load from. -/
def followCycle {α : Type} (s : Nat) (tmp : α) : Nat → Cells Int → Cells α → Nat →
    Option (Cells Int × Cells α)
  | 0, _, _, _ => none
  | rounds + 1, idx, xs, cur =>
    let src := idx cur
    if src = s then some (idx.store cur (setVisited src), xs.store cur tmp)
    else if src < 0 then none
    else followCycle s tmp rounds (idx.store cur (setVisited src)) (xs.store cur (xs src.toNat))
      src.toNat

/-- The permutation is applied in place, from every slot that was not visited. -/
def applyIndex {α : Type} (count : Nat) (idx : Cells Int) (xs : Cells α) :
    Option (Cells Int × Cells α) :=
  (List.range count).foldlM (fun s i =>
    if s.1 i < 0 then some s else followCycle i (s.2 i) count s.1 s.2 i) (idx, xs)

/-- `sort(P.key)` and `sort(P.key, desc)` on a static pool. -/
def emitSort (p : Pool S.Row cap) (key : Fin S.ncol) (descending : Bool) :
    Option (Pool S.Row cap) :=
  let count := p.count.toNat
  let pass0 := appendSlots (fun i => !p.deadRow i) count (fun _ => 0, 0)
  let pass1 := appendSlots p.deadRow count pass0
  let idx := sortIndex (S.col key).type descending (fun row => p.slices row key) pass1.1 pass0.2
  (applyIndex count (fun i => (idx i : Int)) p.slices).map fun s => p.sortTrim (rowsOf s.2)

/-! ## What a sort is for -/

namespace Pool

def liveSlots (p : Pool S.Row cap) : List Nat :=
  (List.range p.count.toNat).filter fun i => !p.deadRow i

def liveRows (p : Pool S.Row cap) : List S.Row := p.liveSlots.filterMap fun i => p.rows[i]?

end Pool

/-- The key of a row. -/
def rowKey (key : Fin S.ncol) (row : S.Row) : S.Elem key := (row key)[0]?.getD 0

/-- The value of the key, in its own signedness. -/
def rowRank (key : Fin S.ncol) (row : S.Row) : Option Int :=
  (S.col key).type.sortKind.rank (rowKey key row)

/-- The row `a` may stand before `b`. -/
def InOrder (key : Fin S.ncol) (descending : Bool) (a b : S.Row) : Prop :=
  ∃ x y, rowRank key a = some x ∧ rowRank key b = some y ∧ (rankLt descending x y ∨ x = y)

/-- The live rows of `p'` are those of `p`, ordered by the key, rows of one key as before. -/
structure SortsRows (key : Fin S.ncol) (descending : Bool) (p p' : Pool S.Row cap) : Prop where
  perm : p'.liveRows.Perm p.liveRows
  ordered : p'.liveRows.Pairwise (InOrder key descending)
  stable : ∀ v : Int, p'.liveRows.filter (fun row => rowRank key row = some v) =
    p.liveRows.filter fun row => rowRank key row = some v

/-- Every live row has a number for its key. -/
def Numbers (key : Fin S.ncol) (p : Pool S.Row cap) : Prop :=
  ∀ row ∈ p.liveRows, (rowRank key row).isSome = true

/-- No row is dead, and the rows are in order by a key of one element. -/
def InPlace (key : Fin S.ncol) (descending : Bool) (p : Pool S.Row cap) : Prop :=
  (∀ i, i < p.count.toNat → p.deadRow i = false) ∧ (S.col key).perRow = 1 ∧
    p.liveRows.Pairwise (InOrder key descending)

/-! ## Runs -/

inductive ShapeOp (S : Shape)
  | insert (row : S.Row) (evictSlot : Int)
  | delete (handle : BitVec 64)
  | sort (key : Fin S.ncol) (descending : Bool)

/-- A call that returns. -/
def ShapeStep (p : Pool S.Row cap) : ShapeOp S → Pool S.Row cap → Prop
  | .insert row evictSlot, q => ∃ o, archeInsert p row evictSlot = some o ∧ q = o.pool
  | .delete handle, q => ∃ o, archeDelete p handle = some o ∧ o.aborted = false ∧ q = o.pool
  | .sort key descending, q => emitSort p key descending = some q

namespace PoolSortLemmas

/-! ## The permutation in place -/

section Cycles

variable {α : Type} {f : Nat → Nat} {n s cur : Nat} {xs₀ xs : Cells α} {idx : Cells Int}

/-- `f` permutes the numbers below `n`. -/
structure PermutesBelow (f : Nat → Nat) (n : Nat) : Prop where
  lt : ∀ i, i < n → f i < n
  inj : ∀ i j, i < n → j < n → f i = f j → i = j

theorem permutesBelow_of_perm (h : (Cells.first n f).Perm (List.range n)) : PermutesBelow f n := by
  have hd : Distinct n f := h.nodup_iff.mpr List.nodup_range
  refine ⟨fun i hi => ?_, fun i j hi hj he => ?_⟩
  · exact List.mem_range.mp (h.mem_iff.mp (mem_first.mpr ⟨i, hi, rfl⟩))
  · by_contra hne
    exact hd.ne hne hi hj he

/-- A visited slot has its new entry, any other one its old entry and its old index. -/
structure Placing (f : Nat → Nat) (n : Nat) (xs₀ : Cells α) (idx : Cells Int) (xs : Cells α) :
    Prop where
  done : ∀ i, i < n → idx i < 0 → xs i = xs₀ (f i)
  todo : ∀ i, i < n → 0 ≤ idx i → idx i = f i ∧ xs i = xs₀ i
  rest : ∀ i, n ≤ i → xs i = xs₀ i

/-- Whole cycles were visited. -/
def Closed (f : Nat → Nat) (n : Nat) (idx : Cells Int) : Prop :=
  ∀ i, i < n → (idx i < 0 ↔ idx (f i) < 0)

/-- The walk has come from `s` to `cur`. -/
structure OnCycle (f : Nat → Nat) (n s cur : Nat) (idx : Cells Int) : Prop where
  lt : cur < n
  open_ : 0 ≤ idx cur
  fwd : ∀ i, i < n → idx i < 0 → idx (f i) < 0 ∨ f i = cur
  bwd : ∀ i, i < n → idx (f i) < 0 → f i ≠ s → idx i < 0
  back : cur ≠ s → ∃ i, i < n ∧ f i = cur ∧ idx i < 0
  start : cur = s ∨ idx s < 0

theorem setVisited_neg {v : Nat} (h : (v : Int) < 9223372036854775808) : setVisited v < 0 := by
  unfold setVisited
  split <;> omega

theorem store_neg {i : Nat} {v : Int} (hv : v < 0) (h : idx i < 0) : idx.store cur v i < 0 := by
  unfold Cells.store
  split
  · exact hv
  · exact h

theorem neg_of_store {i : Nat} {v : Int} (hi : i ≠ cur) (h : idx.store cur v i < 0) :
    idx i < 0 := by
  rwa [store_other idx v hi] at h

theorem placing_store (h : Placing f n xs₀ idx xs) (hlt : cur < n) {v : Int} (hv : v < 0) {a : α}
    (ha : a = xs₀ (f cur)) : Placing f n xs₀ (idx.store cur v) (xs.store cur a) := by
  refine ⟨fun i hi hneg => ?_, fun i hi hpos => ?_, fun i hi => ?_⟩
  · by_cases he : i = cur
    · rw [he, store_same, ha]
    · rw [store_other xs a he]
      exact h.done i hi (neg_of_store he hneg)
  · have he : i ≠ cur := by
      rintro rfl
      rw [store_same] at hpos
      omega
    rw [store_other idx v he] at hpos ⊢
    rw [store_other xs a he]
    exact h.todo i hi hpos
  · rw [store_other xs a (by omega)]
    exact h.rest i hi

/-- The next slot of the cycle was not visited, unless the cycle is at its end. -/
theorem onCycle_next (hf : PermutesBelow f n) (h : OnCycle f n s cur idx) (hs : f cur ≠ s) :
    0 ≤ idx (f cur) ∧ f cur ≠ cur := by
  constructor
  · by_contra hneg
    have hcur := h.bwd cur h.lt (by omega) hs
    have := h.open_
    omega
  · intro he
    obtain ⟨i, hi, hfi, hneg⟩ := h.back (he ▸ hs)
    have hic : i = cur := hf.inj i cur hi h.lt (hfi.trans he.symm)
    rw [hic] at hneg
    have := h.open_
    omega

theorem onCycle_step (hf : PermutesBelow f n) (h : OnCycle f n s cur idx) (hs : f cur ≠ s) {v : Int}
    (hv : v < 0) : OnCycle f n s (f cur) (idx.store cur v) := by
  obtain ⟨hopen, hne⟩ := onCycle_next hf h hs
  have hcur : idx.store cur v cur < 0 := by
    rw [store_same]
    exact hv
  refine ⟨hf.lt cur h.lt, ?_, fun i hi hneg => ?_, fun i hi hneg his => ?_,
    fun _ => ⟨cur, h.lt, rfl, hcur⟩, .inr ?_⟩
  · rwa [store_other idx v hne]
  · by_cases he : i = cur
    · exact .inr (by rw [he])
    · rcases h.fwd i hi (neg_of_store he hneg) with hfi | hfi
      · exact .inl (store_neg hv hfi)
      · rw [hfi]
        exact .inl hcur
  · by_cases he : f i = cur
    · obtain ⟨j, hj, hfj, hjneg⟩ := h.back (he ▸ his)
      rw [hf.inj i j hi hj (he.trans hfj.symm)]
      exact store_neg hv hjneg
    · exact store_neg hv (h.bwd i hi (neg_of_store he hneg) his)
  · rcases h.start with he | hneg
    · rw [← he]
      exact hcur
    · exact store_neg hv hneg

theorem closed_of_end (hf : PermutesBelow f n) (h : OnCycle f n s cur idx) (hs : f cur = s)
    {v : Int} (hv : v < 0) : Closed f n (idx.store cur v) := by
  have hcur : idx.store cur v cur < 0 := by
    rw [store_same]
    exact hv
  have hstart : idx.store cur v s < 0 := by
    rcases h.start with he | hneg
    · rw [← he]
      exact hcur
    · exact store_neg hv hneg
  refine fun i hi => ⟨fun hneg => ?_, fun hneg => ?_⟩
  · by_cases he : i = cur
    · rw [he, hs]
      exact hstart
    · rcases h.fwd i hi (neg_of_store he hneg) with hfi | hfi
      · exact store_neg hv hfi
      · rw [hfi]
        exact hcur
  · by_cases his : f i = s
    · rw [hf.inj i cur hi h.lt (his.trans hs.symm)]
      exact hcur
    by_cases he : f i = cur
    · obtain ⟨j, hj, hfj, hjneg⟩ := h.back (he ▸ his)
      rw [hf.inj i j hi hj (he.trans hfj.symm)]
      exact store_neg hv hjneg
    · exact store_neg hv (h.bwd i hi (neg_of_store he hneg) his)

/-- The slots that were not visited. -/
def unvisited (n : Nat) (idx : Cells Int) : Finset Nat :=
  (Finset.range n).filter fun i => 0 ≤ idx i

theorem card_unvisited_lt (hlt : cur < n) (hopen : 0 ≤ idx cur) {v : Int} (hv : v < 0) :
    (unvisited n (idx.store cur v)).card < (unvisited n idx).card := by
  refine Finset.card_lt_card ((Finset.ssubset_iff_of_subset fun i hi => ?_).mpr ⟨cur, ?_, ?_⟩)
  · obtain ⟨hin, hpos⟩ := Finset.mem_filter.mp hi
    refine Finset.mem_filter.mpr ⟨hin, ?_⟩
    by_contra hneg
    have hstill : idx.store cur v i < 0 := store_neg hv (by omega)
    omega
  · exact Finset.mem_filter.mpr ⟨Finset.mem_range.mpr hlt, hopen⟩
  · intro hin
    have hpos := (Finset.mem_filter.mp hin).2
    rw [store_same] at hpos
    omega

theorem followCycle_spec (hf : PermutesBelow f n) (hn : (n : Int) ≤ 9223372036854775808)
    {rounds : Nat} (hrounds : (unvisited n idx).card ≤ rounds) (hp : Placing f n xs₀ idx xs)
    (h : OnCycle f n s cur idx) :
    ∃ r, followCycle s (xs₀ s) rounds idx xs cur = some r ∧ Placing f n xs₀ r.1 r.2 ∧
      Closed f n r.1 ∧ r.1 s < 0 ∧ ∀ i, idx i < 0 → r.1 i < 0 := by
  induction rounds generalizing idx xs cur with
  | zero =>
    have hmem : cur ∈ unvisited n idx := Finset.mem_filter.mpr ⟨Finset.mem_range.mpr h.lt, h.open_⟩
    have := Finset.card_pos.mpr ⟨cur, hmem⟩
    omega
  | succ rounds ih =>
    obtain ⟨hidx, hxs⟩ := hp.todo cur h.lt h.open_
    have hfcur := hf.lt cur h.lt
    have hv : setVisited (idx cur) < 0 := by
      rw [hidx]
      exact setVisited_neg (by omega)
    unfold followCycle
    dsimp only
    by_cases hs : f cur = s
    · rw [if_pos (by rw [hidx, hs])]
      refine ⟨_, rfl, placing_store hp h.lt hv (by rw [hs]), closed_of_end hf h hs hv, ?_,
        fun i hi => store_neg hv hi⟩
      rcases h.start with he | hneg
      · dsimp only
        rw [← he, store_same]
        exact hv
      · exact store_neg hv hneg
    · obtain ⟨hopen, hne⟩ := onCycle_next hf h hs
      have htoNat : (idx cur).toNat = f cur := by rw [hidx, Int.toNat_natCast]
      have hfewer := card_unvisited_lt h.lt h.open_ hv
      rw [if_neg (by rw [hidx]; exact fun he => hs (Int.ofNat_inj.mp he)), if_neg (by omega),
        htoNat]
      obtain ⟨r, hr, hplace, hclosed, hsneg, hmono⟩ := ih (by omega)
        (placing_store hp h.lt hv (hp.todo _ hfcur hopen).2) (onCycle_step hf h hs hv)
      exact ⟨r, hr, hplace, hclosed, hsneg, fun i hi => hmono i (store_neg hv hi)⟩

/-- After the walk every slot has the entry its index names. -/
theorem applyIndex_permutes (hf : PermutesBelow f n) (hn : (n : Int) ≤ 9223372036854775808)
    (xs : Cells α) : ∃ r, applyIndex n (fun i => (f i : Int)) xs = some r ∧
      (∀ i, i < n → r.2 i = xs (f i)) ∧ ∀ i, n ≤ i → r.2 i = xs i := by
  have hrounds : ∀ m, m ≤ n → ∃ r, (List.range m).foldlM (fun (s : Cells Int × Cells α) i =>
      if s.1 i < 0 then some s else followCycle i (s.2 i) n s.1 s.2 i)
        ((fun i => (f i : Int)), xs) = some r ∧
      Placing f n xs r.1 r.2 ∧ Closed f n r.1 ∧ ∀ i, i < m → r.1 i < 0 := by
    intro m hm
    induction m with
    | zero =>
      refine ⟨_, rfl, ⟨fun i _ hneg => ?_, fun i _ _ => ⟨rfl, rfl⟩, fun _ _ => rfl⟩, fun i hi => ?_,
        fun i hi => absurd hi (Nat.not_lt_zero i)⟩
      · dsimp only at hneg
        omega
      · dsimp only
        omega
    | succ m ih =>
      obtain ⟨r, hr, hplace, hclosed, hdone⟩ := ih (by omega)
      rw [List.range_succ, List.foldlM_append, hr]
      show ∃ r', (if r.1 m < 0 then some r else followCycle m (r.2 m) n r.1 r.2 m) >>= _ =
        some r' ∧ _
      by_cases hneg : r.1 m < 0
      · rw [if_pos hneg]
        refine ⟨r, rfl, hplace, hclosed, fun i hi => ?_⟩
        by_cases he : i = m
        · rw [he]
          exact hneg
        · exact hdone i (by omega)
      · have hopen : 0 ≤ r.1 m := by omega
        have hcycle : OnCycle f n m m r.1 := by
          refine ⟨by omega, hopen, fun i hi hi' => .inl ((hclosed i hi).mp hi'),
            fun i hi hi' _ => (hclosed i hi).mpr hi', fun h => absurd rfl h, .inl rfl⟩
        have hcard : (unvisited n r.1).card ≤ n := by
          have := Finset.card_le_card (Finset.filter_subset (fun i => 0 ≤ r.1 i) (Finset.range n))
          rwa [Finset.card_range] at this
        obtain ⟨r', hr', hplace', hclosed', hm', hmono⟩ :=
          followCycle_spec hf hn hcard hplace hcycle
        rw [if_neg hneg, (hplace.todo m (by omega) hopen).2, hr']
        refine ⟨r', rfl, hplace', hclosed', fun i hi => ?_⟩
        by_cases he : i = m
        · rw [he]
          exact hm'
        · exact hmono i (hdone i (by omega))
  obtain ⟨r, hr, hplace, -, hdone⟩ := hrounds n (Nat.le_refl n)
  exact ⟨r, hr, fun i hi => hplace.done i hi (hdone i hi), hplace.rest⟩

end Cycles

/-! ## The list of slots -/

theorem appendSlots_first (take : Nat → Bool) (count : Nat) (idx : Cells Nat) (l : Nat) :
    (appendSlots take count (idx, l)).2 = l + ((List.range count).filter take).length ∧
      (appendSlots take count (idx, l)).1.first (appendSlots take count (idx, l)).2 =
        idx.first l ++ (List.range count).filter take := by
  induction count with
  | zero => exact ⟨rfl, (List.append_nil _).symm⟩
  | succ count ih =>
    obtain ⟨hcursor, hfirst⟩ := ih
    unfold appendSlots at hcursor hfirst ⊢
    rw [List.range_succ, List.foldl_append, List.foldl_cons, List.foldl_nil, List.filter_append,
      List.filter_singleton]
    by_cases ht : take count = true
    · rw [if_pos ht, ht]
      dsimp only
      refine ⟨?_, ?_⟩
      · rw [hcursor, Bool.cond_true, List.length_append, List.length_singleton, Nat.add_assoc]
      · rw [first_succ, store_same, Bool.cond_true, ← List.append_assoc, ← hfirst]
        refine congrArg (· ++ [count]) (first_congr fun i hi => ?_)
        exact store_other _ _ (Nat.ne_of_lt hi)
    · have hf : take count = false := Bool.eq_false_of_not_eq_true ht
      rw [if_neg ht, hf, Bool.cond_false, List.append_nil]
      exact ⟨hcursor, hfirst⟩

variable {p : Pool S.Row cap} {key : Fin S.ncol} {descending : Bool}

/-- The dead slots in front of the frontier. -/
def deadSlots (p : Pool S.Row cap) : List Nat := (List.range p.count.toNat).filter p.deadRow

/-- The list of slots before the sort, and how many of them are live. -/
theorem slots_listed (p : Pool S.Row cap) :
    let pass0 := appendSlots (fun i => !p.deadRow i) p.count.toNat (fun _ => 0, 0)
    let pass1 := appendSlots p.deadRow p.count.toNat pass0
    pass0.2 = p.live ∧ pass1.1.first p.live = p.liveSlots ∧
      pass1.1.first p.count.toNat = p.liveSlots ++ deadSlots p := by
  intro pass0 pass1
  obtain ⟨hlive, hfirst₀⟩ := appendSlots_first (fun i => !p.deadRow i) p.count.toNat (fun _ => 0) 0
  obtain ⟨hall, hfirst₁⟩ := appendSlots_first p.deadRow p.count.toNat pass0.1 pass0.2
  have hlen : pass0.2 = p.live := by
    rw [Nat.zero_add] at hlive
    exact hlive
  have hcount : pass1.2 = p.count.toNat := by
    have hsplit := List.length_eq_length_filter_add (l := List.range p.count.toNat) p.deadRow
    rw [List.length_range] at hsplit
    have hall' : pass1.2 = pass0.2 + ((List.range p.count.toNat).filter p.deadRow).length := hall
    rw [hall', hlen, Pool.live]
    omega
  have hlisted : pass1.1.first p.count.toNat = p.liveSlots ++ deadSlots p := by
    have h₁ : pass1.1.first pass1.2 = pass0.1.first pass0.2 ++ deadSlots p := hfirst₁
    have h₀ : pass0.1.first pass0.2 = p.liveSlots := hfirst₀
    rw [← hcount, h₁, h₀]
  refine ⟨hlen, ?_, hlisted⟩
  have hle := CapacityLemmas.live_le p
  have htake : pass1.1.first p.live = (pass1.1.first p.count.toNat).take p.live := by
    obtain ⟨k, hk⟩ := Nat.exists_eq_add_of_le hle
    rw [hk, first_add, List.take_append_of_le_length (by rw [length_first]),
      List.take_of_length_le (by rw [length_first])]
  rw [htake, hlisted]
  exact List.take_left

theorem slots_perm (p : Pool S.Row cap) :
    (p.liveSlots ++ deadSlots p).Perm (List.range p.count.toNat) := by
  have h := List.filter_append_perm p.deadRow (List.range p.count.toNat)
  exact List.perm_append_comm.trans h

theorem liveSlots_pairwise (p : Pool S.Row cap) : p.liveSlots.Pairwise (· < ·) :=
  List.pairwise_lt_range.filter _

/-! ## Columns and rows -/

theorem rowsOf_getElem (xs : Cells S.Slice) {i : Nat} (hi : i < cap) (row : S.Row)
    (h : ∀ c j (hj : j < (S.col c).perRow), xs (i * (S.col c).perRow + j) c = (row c)[j]) :
    (rowsOf xs : Vector S.Row cap)[i]? = some row := by
  rw [Vector.getElem?_eq_getElem hi, rowsOf, Vector.getElem_ofFn]
  refine congrArg some (funext fun c => Vector.ext fun j hj => ?_)
  rw [Vector.getElem_ofFn]
  exact h c j hj

/-- The elements of a row lie one after the other. -/
theorem slices_row {i j : Nat} {row : S.Row} (hrow : p.rows[i]? = some row) (c : Fin S.ncol)
    (hj : j < (S.col c).perRow) : p.slices (i * (S.col c).perRow + j) c = (row c)[j] := by
  have hpos : 0 < (S.col c).perRow := Nat.lt_of_le_of_lt (Nat.zero_le j) hj
  have hdiv : (i * (S.col c).perRow + j) / (S.col c).perRow = i := by
    rw [Nat.mul_comm, Nat.mul_add_div hpos, Nat.div_eq_of_lt hj, Nat.add_zero]
  have hmod : (i * (S.col c).perRow + j) % (S.col c).perRow = j := by
    rw [Nat.mul_comm, Nat.mul_add_mod, Nat.mod_eq_of_lt hj]
  unfold Pool.slices
  rw [hdiv, hmod, hrow]
  dsimp only
  rw [Vector.getElem?_eq_getElem hj, Option.getD_some]

theorem slices_scalar {i : Nat} {row : S.Row} {c : Fin S.ncol} (hc : (S.col c).perRow = 1)
    (hrow : p.rows[i]? = some row) : p.slices i c = rowKey c row := by
  have h := slices_row hrow c (show 0 < (S.col c).perRow by omega)
  rw [show i * (S.col c).perRow + 0 = i by rw [hc]; omega] at h
  rw [h, rowKey, Vector.getElem?_eq_getElem (by omega), Option.getD_some]

/-- Row `a` comes before row `b` in the list. -/
def Before (p : Pool S.Row cap) (key : Fin S.ncol) (descending : Bool) (a b : Nat) : Prop :=
  emitSortBefore (S.col key).type.sortKind descending (p.slices a key) (p.slices b key) a b = true

theorem getElem?_rows {i : Nat} (hcap : p.count ≤ cap) (hi : i < p.count.toNat) :
    ∃ row, p.rows[i]? = some row :=
  ⟨_, Vector.getElem?_eq_getElem (by omega)⟩

theorem mem_liveSlots {i : Nat} (h : i ∈ p.liveSlots) : i < p.count.toNat :=
  List.mem_range.mp (List.mem_filter.mp h).1

theorem rank_slices (hkey : (S.col key).perRow = 1) {i : Nat} {row : S.Row}
    (hrow : p.rows[i]? = some row) :
    (S.col key).type.sortKind.rank (p.slices i key) = rowRank key row := by
  rw [slices_scalar hkey hrow, rowRank]

theorem before_iff (hkey : (S.col key).perRow = 1) {a b : Nat} {row row' : S.Row}
    (ha : p.rows[a]? = some row) (hb : p.rows[b]? = some row') :
    Before p key descending a b ↔ ∃ x y, rowRank key row = some x ∧ rowRank key row' = some y ∧
      (rankLt descending x y ∨ x = y ∧ a < b) := by
  unfold Before
  rw [emitSortBefore_iff, rank_slices hkey ha, rank_slices hkey hb]

/-- The sort finds an order `f` of the live rows and moves the columns by it. -/
theorem emitSort_moves (hcap : p.count ≤ cap) (hword : cap < 2 ^ 31)
    (hkey : (S.col key).perRow = 1) (hnum : Numbers key p) (descending : Bool) :
    ∃ (f : Nat → Nat) (xs : Cells S.Slice),
      emitSort p key descending = some (p.sortTrim (rowsOf xs)) ∧
      PermutesBelow f p.count.toNat ∧ (Cells.first p.live f).Perm p.liveSlots ∧
      (Cells.first p.live f).Pairwise (Before p key descending) ∧
      (∀ i, i < p.count.toNat → xs i = p.slices (f i)) ∧
      ∀ i, p.count.toNat ≤ i → xs i = p.slices i := by
  obtain ⟨hlive, hfirst, hlisted⟩ := slots_listed p
  unfold emitSort
  dsimp only
  rw [hlive]
  generalize (appendSlots p.deadRow p.count.toNat
    (appendSlots (fun i => !p.deadRow i) p.count.toNat (fun _ => 0, 0))).1 = idx at *
  have hrank : ∀ k, k < p.live →
      ((S.col key).type.sortKind.rank (p.slices (idx k) key)).isSome = true := by
    intro k hk
    have hmem : idx k ∈ p.liveSlots := by
      rw [← hfirst]
      exact mem_first.mpr ⟨k, hk, rfl⟩
    obtain ⟨row, hrow⟩ := getElem?_rows hcap (mem_liveSlots hmem)
    rw [rank_slices hkey hrow]
    exact hnum row (List.mem_filterMap.mpr ⟨idx k, hmem, hrow⟩)
  have hstart : (idx.first p.live).Pairwise (· < ·) := by
    rw [hfirst]
    exact liveSlots_pairwise p
  have hsorts := sortIndex_sorts descending (fun row => p.slices row key) hrank hstart
  generalize sortIndex (S.col key).type descending (fun row => p.slices row key) idx p.live = f
    at *
  have hperm := (hsorts.rearranges.mono (CapacityLemmas.live_le p)).perm
  rw [hlisted] at hperm
  have hf := permutesBelow_of_perm (hperm.trans (slots_perm p))
  obtain ⟨r, hr, hmoved, hrest⟩ := applyIndex_permutes hf (by omega) p.slices
  refine ⟨f, r.2, ?_, hf, hfirst ▸ hsorts.rearranges.perm, pairwise_first.mpr hsorts.sorted, hmoved,
    hrest⟩
  rw [hr]
  rfl

theorem liveRows_trim (p : Pool S.Row cap) (rows : Vector S.Row cap) :
    (p.sortTrim rows).liveRows = (List.range p.live).filterMap fun i => rows[i]? := by
  have hlive : (p.sortTrim rows).liveSlots = List.range p.live := by
    refine List.filter_eq_self.mpr fun i hi => ?_
    have hi : i < p.live := List.mem_range.mp hi
    have hle := CapacityLemmas.live_le p
    unfold Pool.deadRow
    rw [CapacityLemmas.gen_sortTrim, if_pos (by omega)]
    cases p.gen i with
    | none => rfl
    | some g =>
      show (!dead 0#32) = true
      decide
  rw [Pool.liveRows, hlive]
  rfl

theorem sortsRows_scalar (hS : S.Scalar) (hcap : p.count ≤ cap) {f : Nat → Nat}
    {xs : Cells S.Slice} (hf : PermutesBelow f p.count.toNat)
    (hperm : (Cells.first p.live f).Perm p.liveSlots)
    (hsorted : (Cells.first p.live f).Pairwise (Before p key descending))
    (hmoved : ∀ i, i < p.count.toNat → xs i = p.slices (f i)) :
    SortsRows key descending p (p.sortTrim (rowsOf xs)) := by
  have hle := CapacityLemmas.live_le p
  -- the row at `i` is the whole row that was at `f i`
  have hrows : (p.sortTrim (rowsOf xs)).liveRows =
      (Cells.first p.live f).filterMap fun i => p.rows[i]? := by
    rw [liveRows_trim, Cells.first, List.filterMap_map]
    refine List.filterMap_congr fun i hi => ?_
    have hi : i < p.count.toNat := Nat.lt_of_lt_of_le (List.mem_range.mp hi) hle
    obtain ⟨row, hrow⟩ := getElem?_rows hcap (hf.lt i hi)
    rw [Function.comp_apply, hrow]
    refine rowsOf_getElem xs (by omega) row fun c j hj => ?_
    have hc := hS c
    have hj0 : j = 0 := by omega
    subst hj0
    have helem := slices_row hrow c hj
    rw [show f i * (S.col c).perRow + 0 = f i by rw [hc]; omega] at helem
    rw [show i * (S.col c).perRow + 0 = i by rw [hc]; omega, hmoved i hi, helem]
  have hslot : ∀ a ∈ Cells.first p.live f, ∃ row, p.rows[a]? = some row :=
    fun a ha => getElem?_rows hcap (mem_liveSlots (hperm.mem_iff.mp ha))
  refine ⟨?_, ?_, fun v => ?_⟩
  · rw [hrows]
    exact hperm.filterMap _
  · rw [hrows, List.pairwise_filterMap]
    refine hsorted.imp fun {a b} hab row hrow row' hrow' => ?_
    obtain ⟨x, y, hx, hy, hxy⟩ := (before_iff (hS key) hrow hrow').mp hab
    refine ⟨x, y, hx, hy, ?_⟩
    rcases hxy with hlt | ⟨he, -⟩
    · exact .inl hlt
    · exact .inr he
  · -- the slots of one key are in ascending order on both sides
    let same : Nat → Bool := fun i => (p.rows[i]?).any fun row => rowRank key row = some v
    have hfilter : ∀ l : List Nat, (l.filterMap fun i => p.rows[i]?).filter
        (fun row => rowRank key row = some v) = (l.filter same).filterMap fun i => p.rows[i]? := by
      intro l
      rw [List.filter_filterMap, List.filterMap_filter]
      refine List.filterMap_congr fun i _ => ?_
      cases hrow : p.rows[i]? with
      | none => simp
      | some row => simp [same, hrow, Option.filter]
    rw [hrows, Pool.liveRows, hfilter, hfilter]
    refine congrArg (List.filterMap fun i => p.rows[i]?) ?_
    have hasc : ((Cells.first p.live f).filter same).Pairwise (· < ·) := by
      refine List.Pairwise.imp_of_mem (fun {a b} ha hb hab => ?_) (hsorted.filter same)
      obtain ⟨ha, hsa⟩ := List.mem_filter.mp ha
      obtain ⟨hb, hsb⟩ := List.mem_filter.mp hb
      obtain ⟨row, hrow⟩ := hslot a ha
      obtain ⟨row', hrow'⟩ := hslot b hb
      obtain ⟨x, y, hx, hy, hxy⟩ := (before_iff (hS key) hrow hrow').mp hab
      have hxv : x = v := by
        simpa [same, hrow, hx] using hsa
      have hyv : y = v := by
        simpa [same, hrow', hy] using hsb
      rcases hxy with hlt | ⟨-, hlt⟩
      · rw [hxv, hyv] at hlt
        unfold rankLt at hlt
        split at hlt <;> exact absurd hlt (Int.lt_irrefl v)
      · exact hlt
    refine (hperm.filter same).eq_of_pairwise (fun a b _ _ hab hba => ?_) hasc
      ((liveSlots_pairwise p).filter same)
    exact absurd hab (Nat.lt_asymm hba)

/-- Where no row has to move, nothing is moved. -/
theorem sortsRows_inPlace (hin : InPlace key descending p) (hcap : p.count ≤ cap) {f : Nat → Nat}
    {xs : Cells S.Slice} (hperm : (Cells.first p.live f).Perm p.liveSlots)
    (hsorted : (Cells.first p.live f).Pairwise (Before p key descending))
    (hmoved : ∀ i, i < p.count.toNat → xs i = p.slices (f i))
    (hrest : ∀ i, p.count.toNat ≤ i → xs i = p.slices i) :
    SortsRows key descending p (p.sortTrim (rowsOf xs)) := by
  obtain ⟨hdead, hkey, hordered⟩ := hin
  have hall : p.liveSlots = List.range p.count.toNat := by
    refine List.filter_eq_self.mpr fun i hi => ?_
    rw [hdead i (List.mem_range.mp hi)]
    rfl
  have hlive : p.live = p.count.toNat := by
    have h := congrArg List.length hall
    rwa [List.length_range] at h
  have hbefore : p.liveSlots.Pairwise (Before p key descending) := by
    have h := List.pairwise_filterMap.mp hordered
    refine List.Pairwise.imp_of_mem (fun {a b} ha hb hab => ?_) (h.and (liveSlots_pairwise p))
    obtain ⟨row, hrow⟩ := getElem?_rows hcap (mem_liveSlots ha)
    obtain ⟨row', hrow'⟩ := getElem?_rows hcap (mem_liveSlots hb)
    obtain ⟨x, y, hx, hy, hxy⟩ := hab.1 row hrow row' hrow'
    refine (before_iff hkey hrow hrow').mpr ⟨x, y, hx, hy, ?_⟩
    rcases hxy with hlt | he
    · exact .inl hlt
    · exact .inr ⟨he, hab.2⟩
  have hid : Cells.first p.live f = p.liveSlots := by
    refine hperm.eq_of_pairwise (fun a b _ _ hab hba => ?_) hsorted hbefore
    by_contra hne
    have ho := strictOn_before (S.col key).type.sortKind descending fun row => p.slices row key
    have haa := ho.trans a b a hab hba
    obtain ⟨x, y, hx, hy, hxy⟩ := (emitSortBefore_iff _ _ _ _ _ _).mp haa
    cases hx.symm.trans hy
    rcases hxy with hlt | ⟨-, hlt⟩
    · unfold rankLt at hlt
      split at hlt <;> exact absurd hlt (Int.lt_irrefl x)
    · exact absurd hlt (Nat.lt_irrefl a)
  have hsame : ∀ i, xs i = p.slices i := by
    intro i
    by_cases hi : i < p.count.toNat
    · rw [hmoved i hi]
      rw [hall, hlive] at hid
      have hfi : f i = i := by
        have := List.map_inj_left.mp (hid.trans (List.map_id _).symm) i (List.mem_range.mpr hi)
        exact this
      rw [hfi]
    · exact hrest i (by omega)
  have hrows : (p.sortTrim (rowsOf xs)).liveRows = p.liveRows := by
    rw [liveRows_trim, Pool.liveRows, hall, hlive]
    refine List.filterMap_congr fun i hi => ?_
    have hi : i < p.count.toNat := List.mem_range.mp hi
    obtain ⟨row, hrow⟩ := getElem?_rows hcap hi
    rw [hrow]
    refine rowsOf_getElem xs (by omega) row fun c j hj => ?_
    rw [hsame]
    exact slices_row hrow c hj
  exact ⟨hrows ▸ .refl _, hrows ▸ hordered, fun v => by rw [hrows]⟩

/-! ## Runs -/

/-- What every call keeps. -/
structure InRange (p : Pool S.Row cap) : Prop where
  count_nonneg : 0 ≤ p.count
  count_le : p.count ≤ cap
  free_nonneg : 0 ≤ p.freeCount

theorem inRange_insert {row : S.Row} {evictSlot : Int} {o : Outcome S.Row cap} (h : InRange p)
    (ho : archeInsert p row evictSlot = some o) : InRange o.pool := by
  unfold archeInsert at ho
  split at ho
  · cases ho
  · cases ho
    exact h
  · next c hc =>
    -- the chosen slot is on the stack, at the frontier or the victim's
    have hchosen : c.pool.count = p.count ∧ 0 ≤ c.pool.freeCount ∧
        (c.doIncr = true → p.count < cap) := by
      unfold chooseSlot at hc
      split at hc
      · next hfree =>
        dsimp only at hc
        split at hc
        · cases hc
        · cases hc
          exact ⟨rfl, by dsimp only; omega, fun hd => absurd hd Bool.false_ne_true⟩
      split at hc
      · next hfull =>
        split at hc
        · cases hc
          exact ⟨rfl, h.free_nonneg, fun hd => absurd hd Bool.false_ne_true⟩
        · cases hc
      · next hfull =>
        cases hc
        exact ⟨rfl, h.free_nonneg, fun _ => by omega⟩
    obtain ⟨hcount, hfree, hroom⟩ := hchosen
    have hlo := h.count_nonneg
    have hhi := h.count_le
    split at ho
    · cases ho
    · next p1 hp1 =>
      unfold Pool.writeFields at hp1
      split at hp1
      · cases hp1
        dsimp only at ho
        split at ho
        · cases ho
        · cases ho
          by_cases hincr : c.doIncr = true
          · have := hroom hincr
            refine ⟨?_, ?_, ?_⟩ <;> simp only [Pool.setGen, if_pos hincr] <;> omega
          · refine ⟨?_, ?_, ?_⟩ <;> simp only [Pool.setGen, if_neg hincr] <;> omega
      · cases hp1

theorem inRange_delete {handle : BitVec 64} {o : Outcome S.Row cap} (h : InRange p)
    (ho : archeDelete p handle = some o) : InRange o.pool := by
  have hlo := h.count_nonneg
  have hhi := h.count_le
  have hfree := h.free_nonneg
  unfold archeDelete at ho
  dsimp only at ho
  split at ho
  · cases ho
  split at ho
  · cases ho
    exact h
  split at ho
  · cases ho
    exact h
  split at ho
  · cases ho
  · next p2 hp2 =>
    cases ho
    -- a cell of the stack below `0` is never written, so `count` is not
    have hcount : p2.count = p.count := by
      unfold Pool.storeFree Pool.setGen at hp2
      dsimp only at hp2
      split at hp2
      · cases hp2
        rfl
      split at hp2
      · omega
      split at hp2
      · cases hp2
        rfl
      · cases hp2
    refine ⟨?_, ?_, ?_⟩
    · dsimp only
      omega
    · dsimp only
      omega
    · show 0 ≤ p.freeCount + 1
      omega

theorem inRange_sort {q : Pool S.Row cap} (h : InRange p)
    (hs : emitSort p key descending = some q) : InRange q := by
  obtain ⟨r, -, rfl⟩ := Option.map_eq_some_iff.mp hs
  have hle := CapacityLemmas.live_le p
  have hhi := h.count_le
  refine ⟨Int.natCast_nonneg p.live, ?_, Int.le_refl 0⟩
  show (p.live : Int) ≤ cap
  omega

theorem inRange_step {op : ShapeOp S} {q : Pool S.Row cap} (h : InRange p)
    (hs : ShapeStep p op q) : InRange q := by
  cases op with
  | insert row evictSlot =>
    obtain ⟨o, ho, rfl⟩ := hs
    exact inRange_insert h ho
  | delete handle =>
    obtain ⟨o, ho, -, rfl⟩ := hs
    exact inRange_delete h ho
  | sort key descending => exact inRange_sort h hs

end PoolSortLemmas

open PoolSortLemmas

/-- A pool declared with `length` live rows, after any calls: the sort returns, and it sorts the
live rows if their keys are numbers and either every column has one element a row or no row has to
move. -/
theorem emitSort_sorts {zero : S.Row} {length : Int} (h0 : 0 ≤ length) (hlen : length ≤ cap)
    (hword : cap < 2 ^ 31) {ops : List (ShapeOp S)} {p : Pool S.Row cap}
    (hrun : Run ShapeStep (allocInit cap zero length) ops p) (key : Fin S.ncol) (descending : Bool)
    (hnum : Numbers key p) (hmove : S.Scalar ∨ InPlace key descending p) :
    ∃ p', emitSort p key descending = some p' ∧ SortsRows key descending p p' := by
  have hrange : InRange p :=
    hrun.inv InRange ⟨h0, hlen, Int.one_nonneg⟩ fun _ _ _ ha hs => inRange_step ha hs
  have hkey : (S.col key).perRow = 1 := by
    rcases hmove with hS | hin
    · exact hS key
    · exact hin.2.1
  obtain ⟨f, xs, hsort, hf, hperm, hsorted, hmoved, hrest⟩ :=
    emitSort_moves hrange.count_le hword hkey hnum descending
  refine ⟨_, hsort, ?_⟩
  rcases hmove with hS | hin
  · exact sortsRows_scalar hS hrange.count_le hf hperm hsorted hmoved
  · exact sortsRows_inPlace hin hrange.count_le hperm hsorted hmoved hrest

/-- `Pair :: arche { k, name }` with `k :: int` and `name :: [width]char`. -/
abbrev named (width : Nat) : Shape :=
  ⟨2, fun
    | 0 => ⟨.int .w32 true, 1⟩
    | 1 => ⟨.char, width⟩⟩

def namedRow {width : Nat} (k : BitVec 32) (name : Vector (BitVec 8) width) : (named width).Row
  | 0 => #v[k]
  | 1 => name

/-- Two rows were inserted, with the keys `2` and `1`. -/
def twoNamed {width : Nat} (a b : Vector (BitVec 8) width) : Pool (named width).Row 2 :=
  ⟨#v[namedRow 2 a, namedRow 1 b], 2, .replicate 2 0, 1, #v[1#32, 1#32]⟩

theorem twoNamed_run {width : Nat} (a b : Vector (BitVec 8) width) :
    Run ShapeStep (allocInit 2 (namedRow 0 b) 0)
      ([.insert (namedRow 2 a) (-1)] ++ [.insert (namedRow 1 b) (-1)]) (twoNamed a b) := by
  have hone : Run ShapeStep (allocInit 2 (namedRow 0 b) 0) [.insert (namedRow 2 a) (-1)]
      (⟨#v[namedRow 2 a, namedRow 0 b], 1, #v[0, 0], 1, #v[1#32, 0#32]⟩ :
        Pool (named width).Row 2) := by
    refine .snoc .nil ⟨⟨_, packHandle 0 1#32, true, some 0, false, [], false⟩, ?_, rfl⟩
    simp [archeInsert, chooseSlot, Pool.writeFields, Pool.gen, Pool.setGen, allocInit, nextGen]
    exact ⟨rfl, rfl, rfl⟩
  refine .snoc hone ⟨⟨_, packHandle 1 1#32, true, some 1, false, [], false⟩, ?_, rfl⟩
  simp [archeInsert, chooseSlot, Pool.writeFields, Pool.gen, Pool.setGen, nextGen]
  rfl

def names {width : Nat} (p : Pool (named width).Row 2) : List (List (BitVec 8)) :=
  p.liveRows.map fun row => (row 1).toList

theorem emitSort_sorts_two :
    (∃ p', emitSort (twoNamed #v[97] #v[98]) 0 false = some p' ∧
      SortsRows 0 false (twoNamed #v[97] #v[98]) p') ∧
    (emitSort (twoNamed #v[97] #v[98]) 0 false).map names = some [[98], [97]] :=
  ⟨emitSort_sorts (by decide) (by decide) (by decide) (twoNamed_run #v[97] #v[98]) 0 false
    (fun _ _ => rfl) (.inl (by decide)), by decide⟩

/-- The names `"a"` and `"b"` with their terminators: the sort exchanges the first two characters of
the column, which are both of the first name. -/
theorem not_sortsRows :
    ¬∀ (S : Shape) (cap : Nat) (zero : S.Row) (length : Int) (ops : List (ShapeOp S))
        (p : Pool S.Row cap), 0 ≤ length → length ≤ cap → cap < 2 ^ 31 →
        Run ShapeStep (allocInit cap zero length) ops p → ∀ (key : Fin S.ncol) (descending : Bool),
        ∃ p', emitSort p key descending = some p' ∧ SortsRows key descending p p' := by
  intro h
  obtain ⟨p', hsort, hrows⟩ := h (named 2) 2 (namedRow 0 #v[98, 0]) 0 _
    (twoNamed #v[97, 0] #v[98, 0]) (by decide) (by decide) (by decide) (twoNamed_run _ _) 0 false
  have hafter : (emitSort (twoNamed #v[97, 0] #v[98, 0]) 0 false).map names =
      some [[0, 97], [98, 0]] := by decide
  rw [hsort] at hafter
  have hperm : (names p').Perm (names (twoNamed #v[97, 0] #v[98, 0])) := hrows.perm.map _
  rw [Option.some.inj hafter] at hperm
  exact absurd hperm (by decide)

end Arche.Codegen
