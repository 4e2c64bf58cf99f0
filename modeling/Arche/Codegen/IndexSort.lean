import Arche.Lib.Cells
import Mathlib.Algebra.Order.Ring.Int

/-!
# Sorting an index

`emit_sort` never compares rows in place: it sorts an array of row numbers. Three loops do
that, all stated here over the cells of the array and over the comparison
`before`, or the digits of a key:

* `emit_index_insertion` for fewer than 32 rows;
* `emit_index_heapsort` with `emit_sift_down`, for keys without digits;
* `emit_index_radix`, byte by byte from the lowest, between two buffers.

Each of them rearranges the first cells, leaves the rest alone and leaves the first
cells in order: `emitIndexInsertion_sorts`, `emitIndexHeapsort_sorts`,
`emitIndexRadix_sorts`.

The counters of a histogram are `i32` words that count at most the rows of a pool and are
`Nat` here; `Arche.Codegen.SortAgreement` has the words.
-/

namespace Arche.Codegen.IndexSort

open Arche.Lib
open Arche.Lib.Cells

/-! ## The loops -/

section Comparing

variable (before : Nat → Nat → Bool)

/-- The inner loop of `emit_index_insertion`, from slot `j` down. -/
def insertDown (idx : Cells Nat) : Nat → Cells Nat
  | 0 => idx
  | j + 1 => if before (idx (j + 1)) (idx j) then insertDown (idx.swap j (j + 1)) j else idx

def emitIndexInsertion (idx : Cells Nat) (count : Nat) : Cells Nat :=
  (List.range (count - 1)).foldl (fun idx i => insertDown before idx (i + 1)) idx

/-- The `select` of `emit_sift_down`. -/
def laterOf (idx : Cells Nat) (i j : Nat) : Nat := if before (idx i) (idx j) then j else i

/-- The slot `emit_sift_down` has in `lp` at `afterr`. -/
def largest (heapn : Nat) (idx : Cells Nat) (p : Nat) : Nat :=
  let lp := laterOf before idx p (2 * p + 1)
  if 2 * p + 2 < heapn then laterOf before idx lp (2 * p + 2) else lp

theorem largest_cases {heapn : Nat} (idx : Cells Nat) {p : Nat} (hl : 2 * p + 1 < heapn) :
    largest before heapn idx p = p ∨
      Child p (largest before heapn idx p) ∧ largest before heapn idx p < heapn := by
  unfold largest laterOf Child
  dsimp only
  split_ifs <;> omega

def emitSiftDown (heapn : Nat) (idx : Cells Nat) (pos : Nat) : Cells Nat :=
  if _hl : 2 * pos + 1 < heapn then
    let largest := largest before heapn idx pos
    if _h : largest = pos then idx else emitSiftDown heapn (idx.swap pos largest) largest
  else idx
termination_by heapn - pos
decreasing_by
  rcases largest_cases before idx _hl with he | ⟨hc, hlt⟩
  · exact absurd he _h
  · unfold Child at hc
    omega

/-- The first loop of `emit_index_heapsort`, for the slots below `i`. -/
def buildHeap (count : Nat) : Nat → Cells Nat → Cells Nat
  | 0, idx => idx
  | i + 1, idx => buildHeap count i (emitSiftDown before count idx i)

/-- The second loop of `emit_index_heapsort`, from slot `e` down. -/
def extract : Nat → Cells Nat → Cells Nat
  | 0, idx => idx
  | e + 1, idx => extract e (emitSiftDown before (e + 1) (idx.swap 0 (e + 1)) 0)

def emitIndexHeapsort (idx : Cells Nat) (count : Nat) : Cells Nat :=
  extract before (count - 1) (buildHeap before count (count / 2) idx)

end Comparing

section Digits

variable (digit : Nat → Nat)

/-- `hist[byte(key[src[i]])]++` -/
def countDigits (src : Cells Nat) (n : Nat) : Cells Nat :=
  (List.range n).foldl (fun hist i => hist.store (digit (src i)) (hist (digit (src i)) + 1))
    fun _ => 0

/-- The counts become the exclusive starting offsets, in place. -/
def startOffsets (hist : Cells Nat) (b : Nat) : Cells Nat × Nat :=
  (List.range b).foldl (fun s b => (s.1.store b s.2, s.2 + s.1 b)) (hist, 0)

/-- `dst[hist[byte]++] = src[i]` -/
def scatter (src dst hist : Cells Nat) (n : Nat) : Cells Nat × Cells Nat :=
  (List.range n).foldl (fun s i =>
    let b := digit (src i)
    (s.1.store (s.2 b) (src i), s.2.store b (s.2 b + 1))) (dst, hist)

def radixPass (n : Nat) (src dst : Cells Nat) : Cells Nat :=
  (scatter digit src dst (startOffsets (countDigits digit src n) 256).1 n).1

end Digits

/-- The first passes. After each of them the buffers change places. -/
def radixPasses (digit : Nat → Nat → Nat) (n : Nat) (idx idx2 : Cells Nat) :
    Nat → Cells Nat × Cells Nat
  | 0 => (idx, idx2)
  | pass + 1 =>
    let s := radixPasses digit n idx idx2 pass
    (radixPass (digit pass) n s.1 s.2, s.1)

def copyBack (n : Nat) (src dst : Cells Nat) : Cells Nat :=
  (List.range n).foldl (fun dst i => dst.store i (src i)) dst

/-- With an odd number of passes the result is in the other buffer. -/
def emitIndexRadix (digit : Nat → Nat → Nat) (passes n : Nat) (idx idx2 : Cells Nat) : Cells Nat :=
  let s := radixPasses digit n idx idx2 passes
  if passes % 2 = 1 then copyBack n s.1 s.2 else s.1

/-- The index is in order after the call, and only its first `n` cells were moved. -/
structure Sorts (before : Nat → Nat → Prop) (n : Nat) (idx idx' : Cells Nat) : Prop where
  rearranges : Rearranges n idx idx'
  sorted : Sorted before n idx'

theorem Sorts.imp {R Q : Nat → Nat → Prop} {n : Nat} {idx idx' : Cells Nat} (h : Sorts R n idx idx')
    (hRQ : ∀ a b, R a b → Q a b) : Sorts Q n idx idx' :=
  ⟨h.rearranges, fun i j hij hj => hRQ _ _ (h.sorted i j hij hj)⟩

/-! ## Insertion -/

section Insertion

variable {P : Nat → Prop} {before : Nat → Nat → Bool} {idx : Cells Nat} {n : Nat}

/-- Up to slot `i` only the entry in slot `j` may come too late. -/
def SortedBut (before : Nat → Nat → Bool) (i j : Nat) (idx : Cells Nat) : Prop :=
  ∀ a b, a < b → b ≤ i → b ≠ j → before (idx a) (idx b) = true

theorem sortedBut_swap {i j : Nat} (h : SortedBut before i (j + 1) idx)
    (hlt : before (idx (j + 1)) (idx j) = true) (hj : j + 1 ≤ i) :
    SortedBut before i j (idx.swap j (j + 1)) := by
  intro a b hab hb hbj
  by_cases hbs : b = j + 1
  · subst hbs
    rw [swap_right]
    by_cases haj : a = j
    · rw [haj, swap_left]
      exact hlt
    · rw [swap_other idx haj (by omega)]
      exact h a j (by omega) (by omega) (by omega)
  · rw [swap_other idx hbj hbs]
    by_cases haj : a = j
    · rw [haj, swap_left]
      exact h (j + 1) b (by omega) hb hbs
    by_cases has : a = j + 1
    · rw [has, swap_right]
      exact h j b (by omega) hb hbs
    · rw [swap_other idx haj has]
      exact h a b hab hb hbs

theorem insertDown_sorts (ho : StrictOn P fun a b => before a b = true) {i j : Nat} (hj : j ≤ i)
    (hP : ∀ k, k < i + 1 → P (idx k)) (hd : Distinct (i + 1) idx) (h : SortedBut before i j idx) :
    Sorts (fun a b => before a b = true) (i + 1) idx (insertDown before idx j) := by
  induction j generalizing idx with
  | zero => exact ⟨.refl _ _, fun a b hab hb => h a b hab (by omega) (by omega)⟩
  | succ j ih =>
    rw [insertDown]
    split
    · next hlt =>
      have hmove : Rearranges (i + 1) idx (idx.swap j (j + 1)) := .swap idx (by omega) (by omega)
      have hrec := ih (by omega) (hmove.all hP) (hmove.distinct hd) (sortedBut_swap h hlt hj)
      exact ⟨hmove.trans hrec.rearranges, hrec.sorted⟩
    · next hge =>
      refine ⟨.refl _ _, fun a b hab hb => ?_⟩
      by_cases hbs : b = j + 1
      · subst hbs
        have hne := hd.ne (i := j + 1) (j := j) (by omega) (by omega) (by omega)
        have hlast := ho.total _ _ (hP _ (by omega)) (hP _ (by omega)) hne hge
        by_cases haj : a = j
        · rw [haj]
          exact hlast
        · exact ho.trans _ _ _ (h a j (by omega) (by omega) (by omega)) hlast
      · exact h a b hab (by omega) hbs

theorem emitIndexInsertion_sorts (ho : StrictOn P fun a b => before a b = true)
    (hP : ∀ k, k < n → P (idx k)) (hd : Distinct n idx) :
    Sorts (fun a b => before a b = true) n idx (emitIndexInsertion before idx n) := by
  -- after `m` rounds the first `m + 1` cells are in order
  have hrounds : ∀ m, m < n → Sorts (fun a b => before a b = true) (m + 1) idx
      ((List.range m).foldl (fun idx i => insertDown before idx (i + 1)) idx) := by
    intro m hm
    induction m with
    | zero => exact ⟨.refl _ _, fun a b _ _ => by omega⟩
    | succ m ih =>
      rw [List.range_succ, List.foldl_append, List.foldl_cons, List.foldl_nil]
      obtain ⟨hmove, hsorted⟩ := ih (by omega)
      have hmove := hmove.mono (Nat.le_succ (m + 1))
      have hround := insertDown_sorts ho (Nat.le_refl (m + 1))
        (hmove.all fun k hk => hP k (by omega)) (hmove.distinct (hd.mono (by omega)))
        fun a b hab hb hbm => hsorted a b hab (by omega)
      exact ⟨hmove.trans hround.rearranges, hround.sorted⟩
  by_cases hn : n = 0
  · subst hn
    exact ⟨.refl _ _, fun a b _ hb => absurd hb (Nat.not_lt_zero b)⟩
  · have h := hrounds (n - 1) (by omega)
    rwa [Nat.sub_add_cancel (Nat.one_le_iff_ne_zero.mpr hn)] at h

end Insertion

/-! ## Heapsort -/

section Heapsort

variable {P : Nat → Prop} {before : Nat → Nat → Bool} {idx : Cells Nat} {n : Nat}

theorem laterOf_spec (ho : StrictOn P fun a b => before a b = true) {i j : Nat}
    (hP : ∀ k, k < n → P (idx k)) (hd : Distinct n idx) (hi : i < n) (hj : j < n) (hij : i ≠ j) :
    laterOf before idx i j = i ∧ before (idx j) (idx i) = true ∨
      laterOf before idx i j = j ∧ before (idx i) (idx j) = true := by
  unfold laterOf
  split
  · next h => exact .inr ⟨rfl, h⟩
  · next h => exact .inl ⟨rfl, ho.total _ _ (hP i hi) (hP j hj) (hd.ne hij hi hj) h⟩

/-- Of `p` and its children, `largest` comes last. -/
theorem largest_max (ho : StrictOn P fun a b => before a b = true) {p : Nat}
    (hP : ∀ k, k < n → P (idx k)) (hd : Distinct n idx) (hl : 2 * p + 1 < n) :
    ∀ c, c = p ∨ Child p c → c < n → c ≠ largest before n idx p →
      before (idx c) (idx (largest before n idx p)) = true := by
  unfold largest
  dsimp only
  by_cases hr : 2 * p + 2 < n
  · rw [if_pos hr]
    rcases laterOf_spec ho hP hd (i := p) (by omega) hl (by omega) with ⟨he, hlp⟩ | ⟨he, hlp⟩
    · rw [he]
      rcases laterOf_spec ho hP hd (i := p) (by omega) hr (by omega) with ⟨he', hrp⟩ | ⟨he', hrp⟩
      · rw [he']
        rintro c (rfl | rfl | rfl) - hne
        · exact absurd rfl hne
        · exact hlp
        · exact hrp
      · rw [he']
        rintro c (rfl | rfl | rfl) - hne
        · exact hrp
        · exact ho.trans _ _ _ hlp hrp
        · exact absurd rfl hne
    · rw [he]
      rcases laterOf_spec ho hP hd hl hr (by omega) with ⟨he', hrl⟩ | ⟨he', hrl⟩
      · rw [he']
        rintro c (rfl | rfl | rfl) - hne
        · exact hlp
        · exact absurd rfl hne
        · exact hrl
      · rw [he']
        rintro c (rfl | rfl | rfl) - hne
        · exact ho.trans _ _ _ hlp hrl
        · exact hrl
        · exact absurd rfl hne
  · rw [if_neg hr]
    rcases laterOf_spec ho hP hd (i := p) (by omega) hl (by omega) with ⟨he, hlp⟩ | ⟨he, hlp⟩
    · rw [he]
      rintro c (rfl | rfl | rfl) hcn hne
      · exact absurd rfl hne
      · exact hlp
      · exact absurd hcn hr
    · rw [he]
      rintro c (rfl | rfl | rfl) hcn hne
      · exact hlp
      · exact absurd rfl hne
      · exact absurd hcn hr

theorem emitSiftDown_heap (ho : StrictOn P fun a b => before a b = true) {k pos : Nat}
    (hk : k ≤ pos) (hpos : pos < n) (hP : ∀ i, i < n → P (idx i)) (hd : Distinct n idx)
    (h : HeapBut (fun a b => before a b = true) k n pos idx)
    (hs : Spans (fun a b => before a b = true) k n pos idx) :
    Rearranges n idx (emitSiftDown before n idx pos) ∧
      Heap (fun a b => before a b = true) k n (emitSiftDown before n idx pos) := by
  fun_induction emitSiftDown before n idx pos with
  | case1 idx pos hl m hm =>
    have hmax := largest_max ho hP hd hl
    refine ⟨.refl _ _, h.heap fun c hc hcn => ?_⟩
    have hne : c ≠ largest before n idx pos := by
      rw [show largest before n idx pos = pos from hm]
      unfold Child at hc
      omega
    have hlt := hmax c (.inr hc) hcn hne
    rwa [show largest before n idx pos = pos from hm] at hlt
  | case2 idx pos hl m hm ih =>
    have hmax := largest_max ho hP hd hl
    rcases largest_cases before idx hl with he | ⟨hc, hcn⟩
    · exact absurd he hm
    have hmove : Rearranges n idx (idx.swap pos m) := .swap idx hpos hcn
    obtain ⟨hheap, hspan⟩ := h.sink hs hk hc (hmax pos (.inl rfl) hpos (Ne.symm hm))
      (fun d hd' => hmax d (.inr hd')) hcn
    have hle : k ≤ m := by
      have := hc
      unfold Child at this
      omega
    obtain ⟨hrest, hout⟩ := ih hle hcn (hmove.all hP) (hmove.distinct hd) hheap hspan
    exact ⟨hmove.trans hrest, hout⟩
  | case3 idx pos hl =>
    refine ⟨.refl _ _, h.heap fun c hc hcn => ?_⟩
    unfold Child at hc
    omega

theorem buildHeap_heap (ho : StrictOn P fun a b => before a b = true) {i : Nat} (hi : i ≤ n / 2)
    (hP : ∀ k, k < n → P (idx k)) (hd : Distinct n idx)
    (h : Heap (fun a b => before a b = true) i n idx) :
    Rearranges n idx (buildHeap before n i idx) ∧
      Heap (fun a b => before a b = true) 0 n (buildHeap before n i idx) := by
  induction i generalizing idx with
  | zero => exact ⟨.refl _ _, h⟩
  | succ i ih =>
    have hbut : HeapBut (fun a b => before a b = true) i n i idx :=
      fun p c hp hne => h p c (by omega)
    have hspan : Spans (fun a b => before a b = true) i n i idx := by
      intro p c hp hpi
      unfold Child at hpi
      omega
    obtain ⟨hmove, hheap⟩ := emitSiftDown_heap ho (Nat.le_refl i) (by omega) hP hd hbut hspan
    obtain ⟨hrest, hout⟩ := ih (by omega) (hmove.all hP) (hmove.distinct hd) hheap
    exact ⟨hmove.trans hrest, hout⟩

/-- The cells above `e` hold the last entries in order, and those up to `e` are a heap. -/
structure Extracted (before : Nat → Nat → Bool) (n e : Nat) (idx : Cells Nat) : Prop where
  heap : Heap (fun a b => before a b = true) 0 (e + 1) idx
  tail : ∀ i j, i < j → e < j → j < n → before (idx i) (idx j) = true

theorem extracted_step (ho : StrictOn P fun a b => before a b = true) {e : Nat} (he : e + 1 < n)
    (hP : ∀ k, k < n → P (idx k)) (hd : Distinct n idx) (h : Extracted before n (e + 1) idx) :
    Rearranges n idx (emitSiftDown before (e + 1) (idx.swap 0 (e + 1)) 0) ∧
      Extracted before n e (emitSiftDown before (e + 1) (idx.swap 0 (e + 1)) 0) := by
  have hswap : Rearranges n idx (idx.swap 0 (e + 1)) := .swap idx (by omega) he
  have hP' : ∀ k, k < e + 1 → P (idx.swap 0 (e + 1) k) := fun k hk => hswap.all hP k (by omega)
  have hbut : HeapBut (fun a b => before a b = true) 0 (e + 1) 0 (idx.swap 0 (e + 1)) := by
    intro p c _ hp hpc hc
    have hc0 : c ≠ 0 := by
      unfold Child at hpc
      omega
    rw [swap_other idx hp (by unfold Child at hpc; omega), swap_other idx hc0 (by omega)]
    exact h.heap p c (Nat.zero_le p) hpc (by omega)
  have hspan : Spans (fun a b => before a b = true) 0 (e + 1) 0 (idx.swap 0 (e + 1)) := by
    intro p c _ hp
    unfold Child at hp
    omega
  obtain ⟨hmove, hheap⟩ := emitSiftDown_heap ho (Nat.le_refl 0) (Nat.succ_pos e) hP'
    ((hswap.distinct hd).mono (by omega)) hbut hspan
  have hlast : ∀ i j, i < j → e < j → j < n →
      before (idx.swap 0 (e + 1) i) (idx.swap 0 (e + 1) j) = true := by
    intro i j hij hej hj
    by_cases hje : j = e + 1
    · subst hje
      rw [swap_right]
      by_cases hi : i = 0
      · rw [hi, swap_left]
        exact h.heap.root ho.trans (e + 1) (by omega) (by omega)
      · rw [swap_other idx hi (by omega)]
        exact h.heap.root ho.trans i (by omega) hi
    · rw [swap_other idx (i := 0) (by omega) hje]
      by_cases hi : i = 0
      · rw [hi, swap_left]
        exact h.tail (e + 1) j (by omega) (by omega) hj
      by_cases hie : i = e + 1
      · rw [hie, swap_right]
        exact h.tail 0 j (by omega) (by omega) hj
      · rw [swap_other idx hi hie]
        exact h.tail i j hij (by omega) hj
  refine ⟨hswap.trans (hmove.mono (by omega)), hheap, fun i j hij hej hj => ?_⟩
  rw [hmove.rest j hej]
  by_cases hi : i < e + 1
  · obtain ⟨m, hm, hme⟩ := hmove.source hi
    rw [hme]
    exact hlast m j (by omega) hej hj
  · rw [hmove.rest i (by omega)]
    exact hlast i j hij hej hj

theorem extract_sorts (ho : StrictOn P fun a b => before a b = true) {e : Nat} (he : e < n)
    (hP : ∀ k, k < n → P (idx k)) (hd : Distinct n idx) (h : Extracted before n e idx) :
    Sorts (fun a b => before a b = true) n idx (extract before e idx) := by
  induction e generalizing idx with
  | zero => exact ⟨.refl _ _, fun i j hij hj => h.tail i j hij (by omega) hj⟩
  | succ e ih =>
    obtain ⟨hmove, hnext⟩ := extracted_step ho he hP hd h
    have hrec := ih (by omega) (hmove.all hP) (hmove.distinct hd) hnext
    exact ⟨hmove.trans hrec.rearranges, hrec.sorted⟩

theorem emitIndexHeapsort_sorts (ho : StrictOn P fun a b => before a b = true)
    (hP : ∀ k, k < n → P (idx k)) (hd : Distinct n idx) :
    Sorts (fun a b => before a b = true) n idx (emitIndexHeapsort before idx n) := by
  have hleaves : Heap (fun a b => before a b = true) (n / 2) n idx := by
    intro p c hp hc hcn
    unfold Child at hc
    omega
  obtain ⟨hmove, hheap⟩ := buildHeap_heap ho (Nat.le_refl _) hP hd hleaves
  by_cases hn : n = 0
  · subst hn
    exact ⟨hmove, fun a b _ hb => absurd hb (Nat.not_lt_zero b)⟩
  have hstart : Extracted before n (n - 1) (buildHeap before n (n / 2) idx) := by
    refine ⟨?_, fun i j _ hlo hhi => by omega⟩
    rwa [Nat.sub_add_cancel (Nat.one_le_iff_ne_zero.mpr hn)]
  have hsort := extract_sorts ho (by omega) (hmove.all hP) (hmove.distinct hd) hstart
  exact ⟨hmove.trans hsort.rearranges, hsort.sorted⟩

end Heapsort

/-! ## Radix -/

section Radix

variable {digit : Nat → Nat} {src dst idx idx2 : Cells Nat} {n : Nat}

/-- The rows of one digit, in their order. -/
def ofDigit (digit : Nat → Nat) (b : Nat) (rows : List Nat) : List Nat :=
  rows.filter fun a => digit a == b

theorem ofDigit_snoc (digit : Nat → Nat) (b a : Nat) (rows : List Nat) :
    ofDigit digit b (rows ++ [a]) =
      if digit a = b then ofDigit digit b rows ++ [a] else ofDigit digit b rows := by
  unfold ofDigit
  rw [List.filter_append, List.filter_singleton]
  by_cases h : digit a = b
  · rw [if_pos h, beq_iff_eq.mpr h]
    rfl
  · rw [if_neg h, beq_eq_false_iff_ne.mpr h]
    exact List.append_nil _

theorem countDigits_eq (digit : Nat → Nat) (src : Cells Nat) (n b : Nat) :
    countDigits digit src n b = (ofDigit digit b (src.first n)).length := by
  induction n with
  | zero => rfl
  | succ n ih =>
    rw [first_succ, ofDigit_snoc]
    unfold countDigits at ih ⊢
    rw [List.range_succ, List.foldl_append, List.foldl_cons, List.foldl_nil]
    by_cases h : digit (src n) = b
    · rw [if_pos h, List.length_append, List.length_singleton, ← ih, h, store_same]
    · rw [if_neg h, store_other _ _ (Ne.symm h), ih]

/-- Where the rows of digit `b` start. -/
def startOf (digit : Nat → Nat) (rows : List Nat) (b : Nat) : Nat :=
  (distribute digit b rows).length

theorem startOf_succ (digit : Nat → Nat) (rows : List Nat) (b : Nat) :
    startOf digit rows (b + 1) = startOf digit rows b + (ofDigit digit b rows).length := by
  rw [startOf, distribute_succ, List.length_append]
  rfl

theorem startOf_le (digit : Nat → Nat) (rows : List Nat) {a b : Nat} (h : a + 1 ≤ b) :
    startOf digit rows (a + 1) ≤ startOf digit rows b :=
  length_distribute_mono digit rows h

theorem startOf_all {rows : List Nat} (hdigit : ∀ a, digit a < 256) :
    startOf digit rows 256 = rows.length :=
  (distribute_perm fun a _ => hdigit a).length_eq

theorem startOffsets_eq {rows : List Nat} {hist : Cells Nat}
    (h : ∀ b, hist b = (ofDigit digit b rows).length) (m : Nat) :
    (startOffsets hist m).2 = startOf digit rows m ∧
      ∀ b, (startOffsets hist m).1 b = if b < m then startOf digit rows b else hist b := by
  induction m with
  | zero => exact ⟨rfl, fun b => rfl⟩
  | succ m ih =>
    obtain ⟨hacc, hcells⟩ := ih
    unfold startOffsets at hacc hcells ⊢
    rw [List.range_succ, List.foldl_append, List.foldl_cons, List.foldl_nil]
    dsimp only
    rw [hacc]
    refine ⟨?_, fun b => ?_⟩
    · rw [hcells m, if_neg (Nat.lt_irrefl m), h m, startOf_succ]
    · by_cases hb : b = m
      · rw [hb, store_same, if_pos (Nat.lt_succ_self m)]
      · rw [store_other _ _ hb, hcells b]
        by_cases hlt : b < m
        · rw [if_pos hlt, if_pos (Nat.lt_succ_of_lt hlt)]
        · rw [if_neg hlt, if_neg (by omega)]

/-- The scatter after `i` rows: the rows of each digit stand from its start on, and the offset of
the digit is behind them. -/
structure Scattered (digit : Nat → Nat) (src dst : Cells Nat) (n i : Nat)
    (s : Cells Nat × Cells Nat) : Prop where
  offset : ∀ b, b < 256 →
    s.2 b = startOf digit (src.first n) b + (ofDigit digit b (src.first i)).length
  placed : ∀ b, b < 256 → first (ofDigit digit b (src.first i)).length
    (fun j => s.1 (startOf digit (src.first n) b + j)) = ofDigit digit b (src.first i)
  rest : ∀ k, n ≤ k → s.1 k = dst k

theorem length_ofDigit_le (digit : Nat → Nat) (src : Cells Nat) (b : Nat) {i n : Nat} (h : i ≤ n) :
    (ofDigit digit b (src.first i)).length ≤ (ofDigit digit b (src.first n)).length := by
  obtain ⟨k, rfl⟩ := Nat.exists_eq_add_of_le h
  rw [first_add]
  unfold ofDigit
  rw [List.filter_append, List.length_append]
  exact Nat.le_add_right _ _

theorem scattered_step (hdigit : ∀ a, digit a < 256) {i : Nat} (hi : i < n)
    {s : Cells Nat × Cells Nat} (h : Scattered digit src dst n i s) :
    Scattered digit src dst n (i + 1)
      (s.1.store (s.2 (digit (src i))) (src i),
        s.2.store (digit (src i)) (s.2 (digit (src i)) + 1)) := by
  have hcell := h.offset _ (hdigit (src i))
  -- the row of the step is one more of its digit
  have hone : (ofDigit digit (digit (src i)) (src.first i)).length + 1 ≤
      (ofDigit digit (digit (src i)) (src.first n)).length := by
    have hle := length_ofDigit_le digit src (digit (src i)) (Nat.succ_le_of_lt hi)
    rwa [first_succ, ofDigit_snoc, if_pos rfl, List.length_append, List.length_singleton] at hle
  refine ⟨fun b hb => ?_, fun b hb => ?_, fun k hk => ?_⟩
  · dsimp only
    rw [first_succ, ofDigit_snoc]
    by_cases he : digit (src i) = b
    · rw [if_pos he, ← he, store_same, hcell, List.length_append, List.length_singleton,
        Nat.add_assoc]
    · rw [if_neg he, store_other _ _ (Ne.symm he)]
      exact h.offset b hb
  · dsimp only
    rw [first_succ, ofDigit_snoc, hcell]
    by_cases he : digit (src i) = b
    · rw [if_pos he, List.length_append, List.length_singleton, first_succ, he, store_same]
      refine congrArg (· ++ [src i]) ((first_congr fun j hj => ?_).trans (h.placed b hb))
      exact store_other _ _ (by omega)
    · rw [if_neg he]
      refine (first_congr fun j hj => ?_).trans (h.placed b hb)
      -- the cells of another digit lie before or behind those of this one
      have hcount := length_ofDigit_le digit src b (Nat.le_of_lt hi)
      have hstart := startOf_succ digit (src.first n) b
      have hstart' := startOf_succ digit (src.first n) (digit (src i))
      refine store_other _ _ ?_
      rcases Nat.lt_or_gt_of_ne he with hlt | hgt
      · have hmono := startOf_le digit (src.first n) (Nat.succ_le_of_lt hlt)
        omega
      · have hmono := startOf_le digit (src.first n) (Nat.succ_le_of_lt hgt)
        omega
  · dsimp only
    have hmono := startOf_le digit (src.first n) (Nat.succ_le_of_lt (hdigit (src i)))
    rw [startOf_succ, startOf_all hdigit, length_first] at hmono
    rw [store_other _ _ (by omega)]
    exact h.rest k hk

theorem scatter_scattered (dst : Cells Nat) (hdigit : ∀ a, digit a < 256) {hist : Cells Nat}
    (hhist : ∀ b, b < 256 → hist b = startOf digit (src.first n) b) {i : Nat} (hi : i ≤ n) :
    Scattered digit src dst n i (scatter digit src dst hist i) := by
  induction i with
  | zero => exact ⟨hhist, fun _ _ => rfl, fun _ _ => rfl⟩
  | succ i ih =>
    have hstep := scattered_step hdigit hi (ih (by omega))
    unfold scatter at hstep ⊢
    rw [List.range_succ, List.foldl_append, List.foldl_cons, List.foldl_nil]
    exact hstep

/-- One pass distributes the rows by digit. -/
theorem radixPass_distributes (hdigit : ∀ a, digit a < 256) (n : Nat) (src dst : Cells Nat) :
    (radixPass digit n src dst).first n = distribute digit 256 (src.first n) ∧
      ∀ k, n ≤ k → radixPass digit n src dst k = dst k := by
  have hhist : ∀ b, b < 256 → (startOffsets (countDigits digit src n) 256).1 b =
      startOf digit (src.first n) b := by
    intro b hb
    rw [(startOffsets_eq (countDigits_eq digit src n) 256).2 b, if_pos hb]
  have h := scatter_scattered dst hdigit hhist (Nat.le_refl n)
  refine ⟨?_, h.rest⟩
  have hupto : ∀ m, m ≤ 256 → (radixPass digit n src dst).first (startOf digit (src.first n) m) =
      distribute digit m (src.first n) := by
    intro m hm
    induction m with
    | zero => rfl
    | succ m ih =>
      rw [startOf_succ, first_add, ih (by omega), distribute_succ]
      exact congrArg _ (h.placed m hm)
  have hall := hupto 256 (Nat.le_refl 256)
  rwa [startOf_all hdigit, length_first] at hall

/-- The order of the rows by the lowest `p` bytes of their keys, then by their numbers. -/
def ByLow (key : Nat → Nat) (p a b : Nat) : Prop :=
  key a % 256 ^ p < key b % 256 ^ p ∨ key a % 256 ^ p = key b % 256 ^ p ∧ a < b

theorem byLow_succ {key : Nat → Nat} {p a b : Nat}
    (h : key a / 256 ^ p % 256 < key b / 256 ^ p % 256 ∨
      key a / 256 ^ p % 256 = key b / 256 ^ p % 256 ∧ ByLow key p a b) :
    ByLow key (p + 1) a b := by
  have hpos : 0 < 256 ^ p := Nat.pow_pos (by decide)
  have hlow := Nat.mod_lt (key a) hpos
  unfold ByLow at h ⊢
  rw [Nat.mod_pow_succ, Nat.mod_pow_succ]
  rcases h with hlt | ⟨heq, hbelow⟩
  · left
    have hmul := Nat.mul_le_mul_left (256 ^ p) (Nat.succ_le_of_lt hlt)
    rw [Nat.mul_succ] at hmul
    omega
  · rw [heq]
    rcases hbelow with hlt | ⟨he, hab⟩
    · exact .inl (Nat.add_lt_add_right hlt _)
    · exact .inr ⟨by rw [he], hab⟩

/-- After `p` passes the first buffer is sorted by the lowest `p` bytes, and the cells behind the
rows of `idx` are in the buffer that `idx` is in. -/
structure Passed (key : Nat → Nat) (idx : Cells Nat) (n p : Nat) (s : Cells Nat × Cells Nat) :
    Prop where
  perm : (s.1.first n).Perm (idx.first n)
  order : (s.1.first n).Pairwise (ByLow key p)
  rest : ∀ k, n ≤ k → (if p % 2 = 1 then s.2 k else s.1 k) = idx k

theorem radixPasses_passed {digit : Nat → Nat → Nat} {key : Nat → Nat} {passes : Nat}
    (hdigit : ∀ p a, p < passes → digit p a = key a / 256 ^ p % 256)
    (hstart : (idx.first n).Pairwise (· < ·)) (idx2 : Cells Nat) {p : Nat} (hp : p ≤ passes) :
    Passed key idx n p (radixPasses digit n idx idx2 p) := by
  induction p with
  | zero =>
    refine ⟨.refl _, hstart.imp fun hab => .inr ⟨?_, hab⟩, fun _ _ => rfl⟩
    rw [Nat.pow_zero, Nat.mod_one, Nat.mod_one]
  | succ p ih =>
    have h := ih (by omega)
    have hbyte : ∀ a, digit p a < 256 := by
      intro a
      rw [hdigit p a hp]
      exact Nat.mod_lt _ (by decide)
    obtain ⟨hrows, hrest⟩ := radixPass_distributes hbyte n (radixPasses digit n idx idx2 p).1
      (radixPasses digit n idx idx2 p).2
    refine ⟨?_, ?_, fun k hk => ?_⟩
    · rw [radixPasses, hrows]
      exact (distribute_perm fun a _ => hbyte a).trans h.perm
    · rw [radixPasses, hrows]
      refine (distribute_pairwise h.order 256).imp fun {a b} hab => byLow_succ ?_
      rwa [hdigit p a hp, hdigit p b hp] at hab
    · have hold := h.rest k hk
      rw [radixPasses]
      dsimp only
      rw [hrest k hk]
      by_cases hodd : p % 2 = 1
      · rw [if_pos hodd] at hold
        rw [if_neg (by omega)]
        exact hold
      · rw [if_neg hodd] at hold
        rw [if_pos (by omega)]
        exact hold

theorem copyBack_eq (n : Nat) (src dst : Cells Nat) (k : Nat) :
    copyBack n src dst k = if k < n then src k else dst k := by
  induction n with
  | zero => rfl
  | succ n ih =>
    unfold copyBack at ih ⊢
    rw [List.range_succ, List.foldl_append, List.foldl_cons, List.foldl_nil]
    by_cases hk : k = n
    · rw [hk, store_same, if_pos (Nat.lt_succ_self n)]
    · rw [store_other _ _ hk, ih]
      by_cases hlt : k < n
      · rw [if_pos hlt, if_pos (by omega)]
      · rw [if_neg hlt, if_neg (by omega)]

theorem emitIndexRadix_sorts {digit : Nat → Nat → Nat} (key : Nat → Nat) {passes : Nat}
    (hdigit : ∀ p a, p < passes → digit p a = key a / 256 ^ p % 256)
    (hkey : ∀ a, key a < 256 ^ passes) (hstart : (idx.first n).Pairwise (· < ·))
    (idx2 : Cells Nat) :
    Sorts (fun a b => key a < key b ∨ key a = key b ∧ a < b) n idx
      (emitIndexRadix digit passes n idx idx2) := by
  have h := radixPasses_passed hdigit hstart idx2 (Nat.le_refl passes)
  have horder : ∀ {a b}, ByLow key passes a b → key a < key b ∨ key a = key b ∧ a < b := by
    intro a b hab
    unfold ByLow at hab
    rwa [Nat.mod_eq_of_lt (hkey a), Nat.mod_eq_of_lt (hkey b)] at hab
  have hsorts : ∀ out : Cells Nat,
      (∀ k, k < n → out k = (radixPasses digit n idx idx2 passes).1 k) →
      (∀ k, n ≤ k → out k = idx k) →
      Sorts (fun a b => key a < key b ∨ key a = key b ∧ a < b) n idx out := by
    intro out hfirst hrest
    have heq := first_congr hfirst
    refine ⟨⟨heq ▸ h.perm, hrest⟩, ?_⟩
    have hpair := h.order.imp horder
    rw [← heq] at hpair
    exact pairwise_first.mp hpair
  unfold emitIndexRadix
  dsimp only
  by_cases hodd : passes % 2 = 1
  · rw [if_pos hodd]
    refine hsorts _ (fun k hk => ?_) fun k hk => ?_
    · rw [copyBack_eq, if_pos hk]
    · rw [copyBack_eq, if_neg (by omega)]
      have hrest := h.rest k hk
      rwa [if_pos hodd] at hrest
  · rw [if_neg hodd]
    refine hsorts _ (fun _ _ => rfl) fun k hk => ?_
    have hrest := h.rest k hk
    rwa [if_neg hodd] at hrest

end Radix

end Arche.Codegen.IndexSort
