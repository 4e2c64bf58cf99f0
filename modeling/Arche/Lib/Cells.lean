import Mathlib.Data.List.Nodup
import Mathlib.Data.List.Perm.Basic
import Mathlib.Data.List.Range
import Mathlib.Logic.Equiv.Basic
import Mathlib.Order.Basic

/-!
# Arrays as cells

An array in memory is its cells. A loop over the first `n` of them is judged by the
list `first n` it leaves and by the cells behind, which it must not touch:
`Rearranges n xs ys` says that it only moved entries around. `Sorted` is the order of
the first cells, `Heap` the order of an implicit binary tree, and `distribute` the
lists by digit that one pass of a radix sort concatenates.
-/

namespace Arche.Lib

abbrev Cells (α : Type) := Nat → α

variable {α : Type} {xs ys zs : Cells α} {n : Nat}

namespace Cells

def store (xs : Cells α) (i : Nat) (v : α) : Cells α := fun k => if k = i then v else xs k

def swap (xs : Cells α) (i j : Nat) : Cells α := (xs.store i (xs j)).store j (xs i)

def first (n : Nat) (xs : Cells α) : List α := (List.range n).map xs

theorem store_same (xs : Cells α) (i : Nat) (v : α) : xs.store i v i = v := if_pos rfl

theorem store_other (xs : Cells α) {i k : Nat} (v : α) (h : k ≠ i) : xs.store i v k = xs k :=
  if_neg h

theorem swap_left (xs : Cells α) (i j : Nat) : xs.swap i j i = xs j := by
  unfold swap store
  by_cases h : i = j
  · rw [if_pos h, h]
  · rw [if_neg h, if_pos rfl]

theorem swap_right (xs : Cells α) (i j : Nat) : xs.swap i j j = xs i := store_same _ _ _

theorem swap_other (xs : Cells α) {i j k : Nat} (hi : k ≠ i) (hj : k ≠ j) :
    xs.swap i j k = xs k := by
  rw [swap, store_other _ _ hj, store_other _ _ hi]

theorem swap_eq (xs : Cells α) (i j k : Nat) : xs.swap i j k = xs (Equiv.swap i j k) := by
  by_cases hi : k = i
  · rw [hi, swap_left, Equiv.swap_apply_left]
  by_cases hj : k = j
  · rw [hj, swap_right, Equiv.swap_apply_right]
  rw [swap_other xs hi hj, Equiv.swap_apply_of_ne_of_ne hi hj]

theorem length_first (n : Nat) (xs : Cells α) : (xs.first n).length = n := by
  rw [first, List.length_map, List.length_range]

theorem mem_first {a : α} : a ∈ xs.first n ↔ ∃ i, i < n ∧ xs i = a := by
  simp only [first, List.mem_map, List.mem_range]

theorem first_succ (n : Nat) (xs : Cells α) : xs.first (n + 1) = xs.first n ++ [xs n] := by
  simp only [first, List.range_succ, List.map_append, List.map_cons, List.map_nil]

theorem first_add (m k : Nat) (xs : Cells α) :
    xs.first (m + k) = xs.first m ++ first k fun j => xs (m + j) := by
  simp only [first, List.range_add, List.map_append, List.map_map]
  rfl

theorem first_congr (h : ∀ i, i < n → xs i = ys i) : xs.first n = ys.first n :=
  List.map_congr_left fun i hi => h i (List.mem_range.mp hi)

theorem pairwise_first {R : α → α → Prop} :
    (xs.first n).Pairwise R ↔ ∀ i j, i < j → j < n → R (xs i) (xs j) := by
  rw [first, List.pairwise_map, List.pairwise_iff_getElem]
  simp only [List.length_range, List.getElem_range]
  exact ⟨fun h i j hij hj => h i j (Nat.lt_trans hij hj) hj hij, fun h i j _ hj hij => h i j hij hj⟩

/-! ## Moving entries around -/

/-- The entries are those of `xs` in another order, and the cells from `n` on are as before. -/
structure Rearranges (n : Nat) (xs ys : Cells α) : Prop where
  perm : (ys.first n).Perm (xs.first n)
  rest : ∀ k, n ≤ k → ys k = xs k

/-- No two of the first `n` cells hold the same entry. -/
def Distinct (n : Nat) (xs : Cells α) : Prop := (xs.first n).Nodup

theorem Distinct.ne (h : Distinct n xs) {i j : Nat} (hij : i ≠ j) (hi : i < n) (hj : j < n) :
    xs i ≠ xs j := by
  have hpair := pairwise_first.mp h
  rcases Nat.lt_or_gt_of_ne hij with hlt | hgt
  · exact hpair i j hlt hj
  · exact (hpair j i hgt hi).symm

theorem Distinct.mono {m : Nat} (h : Distinct n xs) (hm : m ≤ n) : Distinct m xs := by
  refine pairwise_first.mpr fun i j hij hj => ?_
  exact h.ne (Nat.ne_of_lt hij) (Nat.lt_of_lt_of_le (Nat.lt_trans hij hj) hm)
    (Nat.lt_of_lt_of_le hj hm)

namespace Rearranges

theorem refl (n : Nat) (xs : Cells α) : Rearranges n xs xs := ⟨.refl _, fun _ _ => rfl⟩

theorem trans (h₁ : Rearranges n xs ys) (h₂ : Rearranges n ys zs) : Rearranges n xs zs :=
  ⟨h₂.perm.trans h₁.perm, fun k hk => (h₂.rest k hk).trans (h₁.rest k hk)⟩

theorem swap (xs : Cells α) {i j : Nat} (hi : i < n) (hj : j < n) :
    Rearranges n xs (xs.swap i j) := by
  have hperm : ((List.range n).map (Equiv.swap i j)).Perm (List.range n) := by
    rw [List.perm_ext_iff_of_nodup (List.Nodup.map (Equiv.swap i j).injective List.nodup_range)
      List.nodup_range]
    intro k
    have hmem : ∀ m, m < n → Equiv.swap i j m < n := by
      intro m hm
      rw [Equiv.swap_apply_def]
      split
      · exact hj
      split
      · exact hi
      · exact hm
    rw [List.mem_map, List.mem_range]
    constructor
    · rintro ⟨m, hm, rfl⟩
      exact hmem m (List.mem_range.mp hm)
    · intro hk
      exact ⟨Equiv.swap i j k, List.mem_range.mpr (hmem k hk), Equiv.swap_apply_self i j k⟩
  refine ⟨?_, fun k hk => ?_⟩
  · have heq : (xs.swap i j).first n = ((List.range n).map (Equiv.swap i j)).map xs := by
      rw [first, List.map_map]
      exact List.map_congr_left fun k _ => swap_eq xs i j k
    rw [heq]
    exact hperm.map xs
  · exact swap_other xs (by omega) (by omega)

theorem mono {m : Nat} (h : Rearranges n xs ys) (hm : n ≤ m) : Rearranges m xs ys := by
  obtain ⟨k, rfl⟩ := Nat.exists_eq_add_of_le hm
  refine ⟨?_, fun i hi => h.rest i (Nat.le_trans hm hi)⟩
  have htail : first k (fun j => ys (n + j)) = first k fun j => xs (n + j) :=
    first_congr fun j _ => h.rest (n + j) (Nat.le_add_right n j)
  rw [first_add, first_add, htail]
  exact h.perm.append_right _

theorem distinct (h : Rearranges n xs ys) (hd : Distinct n xs) : Distinct n ys :=
  h.perm.nodup_iff.mpr hd

/-- Every entry was there before. -/
theorem source (h : Rearranges n xs ys) {i : Nat} (hi : i < n) : ∃ j, j < n ∧ ys i = xs j := by
  obtain ⟨j, hj, he⟩ := mem_first.mp (h.perm.mem_iff.mp (mem_first.mpr ⟨i, hi, rfl⟩))
  exact ⟨j, hj, he.symm⟩

theorem all {P : α → Prop} (h : Rearranges n xs ys) (hP : ∀ k, k < n → P (xs k)) (k : Nat)
    (hk : k < n) : P (ys k) := by
  obtain ⟨j, hj, he⟩ := h.source hk
  rw [he]
  exact hP j hj

end Rearranges

/-! ## Order -/

/-- `before` is a strict order that decides between any two different entries in `P`. -/
structure StrictOn (P : α → Prop) (before : α → α → Prop) : Prop where
  trans : ∀ a b c, before a b → before b c → before a c
  total : ∀ a b, P a → P b → a ≠ b → ¬before a b → before b a

/-- The first `n` cells are in order. -/
def Sorted (before : α → α → Prop) (n : Nat) (xs : Cells α) : Prop :=
  ∀ i j, i < j → j < n → before (xs i) (xs j)

/-- `c` is a child of `p` in the implicit binary tree. -/
def Child (p c : Nat) : Prop := c = 2 * p + 1 ∨ c = 2 * p + 2

/-- In the tree of the first `n` cells every entry from `k` on but the one in `hole` comes after
its children. -/
def HeapBut (before : α → α → Prop) (k n hole : Nat) (xs : Cells α) : Prop :=
  ∀ p c, k ≤ p → p ≠ hole → Child p c → c < n → before (xs c) (xs p)

def Heap (before : α → α → Prop) (k n : Nat) (xs : Cells α) : Prop :=
  ∀ p c, k ≤ p → Child p c → c < n → before (xs c) (xs p)

/-- What is below `hole` comes before what is above it. -/
def Spans (before : α → α → Prop) (k n hole : Nat) (xs : Cells α) : Prop :=
  ∀ p c, k ≤ p → Child p hole → Child hole c → c < n → before (xs c) (xs p)

variable {before : α → α → Prop} {k hole c : Nat}

theorem HeapBut.heap (h : HeapBut before k n hole xs)
    (hc : ∀ c, Child hole c → c < n → before (xs c) (xs hole)) : Heap before k n xs := by
  intro p c hp hpc hcn
  by_cases he : p = hole
  · subst he
    exact hc c hpc hcn
  · exact h p c hp he hpc hcn

/-- The entry in `hole` sinks below its larger child `c`. -/
theorem HeapBut.sink (h : HeapBut before k n hole xs) (hs : Spans before k n hole xs)
    (hk : k ≤ hole) (hc : Child hole c) (hlt : before (xs hole) (xs c))
    (hmax : ∀ d, Child hole d → d < n → d ≠ c → before (xs d) (xs c)) (hcn : c < n) :
    HeapBut before k n c (xs.swap hole c) ∧ Spans before k n c (xs.swap hole c) := by
  have hne : hole ≠ c := by
    rcases hc with rfl | rfl <;> omega
  constructor
  · intro p d hp hpc hpd hd
    by_cases hh : p = hole
    · subst hh
      rw [swap_left]
      by_cases hdc : d = c
      · rw [hdc, swap_right]
        exact hlt
      · have hdh : d ≠ p := by
          rcases hpd with rfl | rfl <;> omega
        rw [swap_other xs hdh hdc]
        exact hmax d hpd hd hdc
    · have hdc : d ≠ c := by
        rintro rfl
        rcases hc with rfl | rfl <;> rcases hpd with hpd | hpd <;> omega
      rw [swap_other xs hh hpc]
      by_cases hdh : d = hole
      · subst hdh
        rw [swap_left]
        exact hs p c hp hpd hc hcn
      · rw [swap_other xs hdh hdc]
        exact h p d hp hh hpd hd
  · intro p d hp hpc hcd hd
    have hph : p = hole := by
      rcases hc with rfl | rfl <;> rcases hpc with hpc | hpc <;> omega
    subst hph
    have hdc : d ≠ c := by
      rcases hcd with rfl | rfl <;> omega
    have hdp : d ≠ p := by
      rcases hcd with rfl | rfl <;> rcases hc with rfl | rfl <;> omega
    rw [swap_left, swap_other xs hdp hdc]
    exact h c d (by rcases hc with rfl | rfl <;> omega) (Ne.symm hne) hcd hd

/-- The root of a heap comes last. -/
theorem Heap.root (h : Heap before 0 n xs) (hb : ∀ a b c, before a b → before b c → before a c)
    (i : Nat) (hi : i < n) (h0 : i ≠ 0) : before (xs i) (xs 0) := by
  induction i using Nat.strongRecOn with
  | _ i ih =>
    have hchild : Child ((i - 1) / 2) i := by
      unfold Child
      omega
    have hstep := h _ i (Nat.zero_le _) hchild hi
    by_cases hp : (i - 1) / 2 = 0
    · rwa [hp] at hstep
    · exact hb _ _ _ hstep (ih _ (by omega) (by omega) hp)

end Cells

/-! ## Stable order -/

section Stable

variable {l : List Nat} {le : Nat → Nat → Bool}

theorem pair_sublist_of_lt (hl : l.Pairwise (· < ·)) {a b : Nat} (ha : a ∈ l) (hb : b ∈ l)
    (h : a < b) : [a, b].Sublist l := by
  induction l with
  | nil => cases ha
  | cons x l ih =>
    obtain ⟨hx, hl⟩ := List.pairwise_cons.mp hl
    rcases List.mem_cons.mp ha with rfl | ha
    · have hbl : b ∈ l := (List.mem_cons.mp hb).resolve_left (Nat.ne_of_gt h)
      exact (List.singleton_sublist.mpr hbl).cons_cons _
    · have hbx : b ≠ x := Nat.ne_of_gt (Nat.lt_trans (hx a ha) h)
      exact (ih hl ha ((List.mem_cons.mp hb).resolve_left hbx)).cons _

theorem not_both_sublist {α : Type} {l : List α} (hl : l.Nodup) {a b : α}
    (hab : [a, b].Sublist l) (hba : [b, a].Sublist l) : False := by
  induction l with
  | nil => cases hab
  | cons x l ih =>
    obtain ⟨hx, hl⟩ := List.nodup_cons.mp hl
    cases hab with
    | cons _ hab =>
      cases hba with
      | cons _ hba => exact ih hl hab hba
      | cons_cons _ _ => exact hx (hab.subset (by simp))
    | cons_cons _ hb =>
      cases hba with
      | cons _ hba => exact hx (hba.subset (by simp))
      | cons_cons _ _ => exact hx (List.singleton_sublist.mp hb)

/-- A stable sort of an increasing list breaks ties by the numbers themselves. -/
theorem mergeSort_ties (htrans : ∀ a b c, le a b = true → le b c = true → le a c = true)
    (htotal : ∀ a b, (le a b || le b a) = true) (hl : l.Pairwise (· < ·)) :
    (l.mergeSort le).Pairwise fun a b => le a b = true ∧ (le b a = true → a < b) := by
  have hnodup : (l.mergeSort le).Nodup :=
    (List.mergeSort_perm l le).nodup_iff.mpr (hl.imp fun h => Nat.ne_of_lt h)
  rw [List.pairwise_iff_forall_sublist]
  intro a b hab
  refine ⟨List.pairwise_iff_forall_sublist.mp (List.pairwise_mergeSort htrans htotal l) hab,
    fun hba => ?_⟩
  have ha : a ∈ l := List.mem_mergeSort.mp (hab.subset (by simp))
  have hb : b ∈ l := List.mem_mergeSort.mp (hab.subset (by simp))
  rcases Nat.lt_trichotomy a b with h | rfl | h
  · exact h
  · exact (not_both_sublist hnodup hab hab).elim
  · have hkeep := List.pair_sublist_mergeSort htrans htotal hba (pair_sublist_of_lt hl hb ha h)
    exact (not_both_sublist hnodup hab hkeep).elim

end Stable

/-! ## Distribution by digit -/

/-- The entries of `l` by their digit, those of one digit in the order of `l`. -/
def distribute (digit : α → Nat) (b : Nat) (l : List α) : List α :=
  (List.range b).flatMap fun v => l.filter fun a => digit a == v

theorem distribute_succ (digit : α → Nat) (b : Nat) (l : List α) :
    distribute digit (b + 1) l = distribute digit b l ++ l.filter fun a => digit a == b := by
  simp only [distribute, List.range_succ, List.flatMap_append, List.flatMap_cons, List.flatMap_nil,
    List.append_nil]

theorem mem_distribute {digit : α → Nat} {b : Nat} {l : List α} {a : α} :
    a ∈ distribute digit b l ↔ a ∈ l ∧ digit a < b := by
  simp only [distribute, List.mem_flatMap, List.mem_range, List.mem_filter, beq_iff_eq]
  constructor
  · rintro ⟨v, hv, ha, rfl⟩
    exact ⟨ha, hv⟩
  · rintro ⟨ha, hv⟩
    exact ⟨_, hv, ha, rfl⟩

theorem distribute_filter (digit : α → Nat) (b : Nat) (l : List α) :
    (distribute digit b l).Perm (l.filter fun a => decide (digit a < b)) := by
  induction b with
  | zero => simp [distribute]
  | succ b ih =>
    rw [distribute_succ]
    have hsplit := List.filter_append_perm (fun a => decide (digit a < b))
      (l.filter fun a => decide (digit a < b + 1))
    refine .trans (.append (ih.trans (.of_eq ?_)) (.of_eq ?_)) hsplit
    · rw [List.filter_filter]
      refine List.filter_congr fun a _ => ?_
      by_cases h : digit a < b
      · simp [h, Nat.lt_succ_of_lt h]
      · simp [h]
    · rw [List.filter_filter]
      refine List.filter_congr fun a _ => ?_
      rw [Bool.eq_iff_iff]
      simp only [beq_iff_eq, Bool.and_eq_true, Bool.not_eq_true', decide_eq_false_iff_not,
        decide_eq_true_eq]
      omega

theorem length_distribute_mono (digit : α → Nat) (l : List α) {a b : Nat} (h : a ≤ b) :
    (distribute digit a l).length ≤ (distribute digit b l).length := by
  induction b with
  | zero => rw [Nat.le_zero.mp h]
  | succ b ih =>
    by_cases he : a = b + 1
    · rw [he]
    · rw [distribute_succ, List.length_append]
      exact Nat.le_trans (ih (by omega)) (Nat.le_add_right _ _)

theorem distribute_perm {digit : α → Nat} {b : Nat} {l : List α} (h : ∀ a ∈ l, digit a < b) :
    (distribute digit b l).Perm l := by
  refine (distribute_filter digit b l).trans (.of_eq ?_)
  exact List.filter_eq_self.mpr fun a ha => decide_eq_true (h a ha)

/-- One pass of a radix sort: the order by digit, within a digit the order before. -/
theorem distribute_pairwise {R : α → α → Prop} {digit : α → Nat} {l : List α} (h : l.Pairwise R)
    (b : Nat) :
    (distribute digit b l).Pairwise fun x y => digit x < digit y ∨ digit x = digit y ∧ R x y := by
  induction b with
  | zero => exact .nil
  | succ b ih =>
    rw [distribute_succ, List.pairwise_append]
    refine ⟨ih, ?_, fun x hx y hy => .inl ?_⟩
    · refine List.Pairwise.imp_of_mem (fun hx hy hR => ?_) (h.filter _)
      have hdx := beq_iff_eq.mp (List.mem_filter.mp hx).2
      have hdy := beq_iff_eq.mp (List.mem_filter.mp hy).2
      exact .inr ⟨hdx.trans hdy.symm, hR⟩
    · rw [beq_iff_eq.mp (List.mem_filter.mp hy).2]
      exact (mem_distribute.mp hx).2

end Arche.Lib
