import Arche.Codegen.SortKey

/-!
# The three sorts of an index agree

`emit_index_radix` keeps its histogram in 256 words of 32 bits, which wrap. `emit_sort`
allocates it together with two index arrays of `cap` entries, and `cap` is an `int`, so the
words never have to count more rows than they can.

1. `emitIndexRadixWords_eq`: up to 2^32 rows the sort over words is the sort over numbers.
2. `index_sorts_agree`: the three sorts all leave the stable order of the rows by key.
3. `radixPassWords_rest`: from slot 2^32 on a pass writes nothing.
-/

namespace Arche.Codegen.IndexSort

open Arche.Lib
open Arche.Lib.Cells

abbrev Histogram := Cells (BitVec 32)

/-! ## The radix sort over words -/

section Digits

variable (digit : Nat → Nat)

/-- `zero histogram[0,256)` -/
def zeroWords (hist : Histogram) : Histogram :=
  (List.range 256).foldl (fun hist i => hist.store i 0) hist

/-- `hist[byte(key[src[i]])]++` -/
def countWords (src : Cells Nat) (n : Nat) (hist : Histogram) : Histogram :=
  (List.range n).foldl (fun hist i => hist.store (digit (src i)) (hist (digit (src i)) + 1)) hist

/-- The counts become the exclusive starting offsets, in place. -/
def offsetWords (hist : Histogram) (b : Nat) : Histogram × BitVec 32 :=
  (List.range b).foldl (fun s b => (s.1.store b s.2, s.2 + s.1 b)) (hist, 0)

/-- `dst[hist[byte]++] = src[i]`, the offset extended with zeros. -/
def scatterWords (src dst : Cells Nat) (hist : Histogram) (n : Nat) : Cells Nat × Histogram :=
  (List.range n).foldl (fun s i =>
    let b := digit (src i)
    let pos := s.2 b
    (s.1.store pos.toNat (src i), s.2.store b (pos + 1))) (dst, hist)

def radixPassWords (n : Nat) (src dst : Cells Nat) (hist : Histogram) : Cells Nat × Histogram :=
  scatterWords digit src dst (offsetWords (countWords digit src n (zeroWords hist)) 256).1 n

end Digits

/-- The memory of the sort: the buffer read, the buffer written and the histogram. -/
structure RadixState where
  src : Cells Nat
  dst : Cells Nat
  hist : Histogram

def RadixState.pass (digit : Nat → Nat) (n : Nat) (s : RadixState) : RadixState :=
  let out := radixPassWords digit n s.src s.dst s.hist
  ⟨out.1, s.src, out.2⟩

/-- With an odd number of passes the result is in the other buffer. -/
def emitIndexRadixWords (digit : Nat → Nat → Nat) (passes n : Nat) (idx idx2 : Cells Nat)
    (hist : Histogram) : Cells Nat :=
  let s := (List.range passes).foldl (fun s pass => s.pass (digit pass) n)
    (RadixState.mk idx idx2 hist)
  if passes % 2 = 1 then copyBack n s.src s.dst else s.src

/-! ## Words that count -/

section Words

variable {digit : Nat → Nat} {src dst idx idx2 : Cells Nat} {n : Nat} {hist : Histogram}

/-- The words hold the numbers of `counts`, as far as they go. -/
def Counts (hist : Histogram) (counts : Cells Nat) : Prop :=
  ∀ b, b < 256 → hist b = BitVec.ofNat 32 (counts b)

theorem Counts.store {counts : Cells Nat} (h : Counts hist counts) (b : Nat) {v : BitVec 32}
    {k : Nat} (hv : v = BitVec.ofNat 32 k) : Counts (hist.store b v) (counts.store b k) := by
  intro c hc
  by_cases hcb : c = b
  · rw [hcb, store_same, store_same, hv]
  · rw [store_other _ _ hcb, store_other _ _ hcb]
    exact h c hc

theorem Counts.succ {counts : Cells Nat} (h : Counts hist counts) {b : Nat} (hb : b < 256) :
    hist b + 1 = BitVec.ofNat 32 (counts b + 1) := by
  rw [h b hb, BitVec.ofNat_add]
  rfl

theorem zeroWords_counts (hist : Histogram) : Counts (zeroWords hist) fun _ => 0 := by
  have hcells : ∀ m b, b < m →
      (List.range m).foldl (fun hist i => Cells.store hist i 0) hist b = 0 := by
    intro m
    induction m with
    | zero => exact fun b hb => absurd hb (Nat.not_lt_zero b)
    | succ m ih =>
      intro b hb
      rw [List.range_succ, List.foldl_append, List.foldl_cons, List.foldl_nil]
      by_cases hbm : b = m
      · rw [hbm, store_same]
      · rw [store_other _ _ hbm]
        exact ih b (Nat.lt_of_le_of_ne (Nat.le_of_lt_succ hb) hbm)
  exact fun b hb => hcells 256 b hb

theorem countWords_counts (hdigit : ∀ a, digit a < 256) (src : Cells Nat) (n : Nat)
    (h : Counts hist fun _ => 0) :
    Counts (countWords digit src n hist) (countDigits digit src n) := by
  induction n with
  | zero => exact h
  | succ n ih =>
    unfold countWords countDigits at ih ⊢
    rw [List.range_succ, List.foldl_append, List.foldl_append]
    simp only [List.foldl_cons, List.foldl_nil]
    exact ih.store _ (ih.succ (hdigit (src n)))

theorem offsetWords_counts {counts : Cells Nat} (h : Counts hist counts) {m : Nat} (hm : m ≤ 256) :
    Counts (offsetWords hist m).1 (startOffsets counts m).1 ∧
      (offsetWords hist m).2 = BitVec.ofNat 32 (startOffsets counts m).2 := by
  induction m with
  | zero => exact ⟨h, rfl⟩
  | succ m ih =>
    obtain ⟨hcells, hacc⟩ := ih (Nat.le_of_succ_le hm)
    unfold offsetWords startOffsets at hcells hacc ⊢
    rw [List.range_succ, List.foldl_append, List.foldl_append]
    simp only [List.foldl_cons, List.foldl_nil]
    refine ⟨hcells.store m hacc, ?_⟩
    rw [hacc, hcells m hm, BitVec.ofNat_add]

/-- Every offset a row is stored at is below `n`. -/
theorem scatter_offset_lt (dst : Cells Nat) (hdigit : ∀ a, digit a < 256) {hist : Cells Nat}
    (hhist : ∀ b, b < 256 → hist b = startOf digit (src.first n) b) {i : Nat} (hi : i < n) :
    (scatter digit src dst hist i).2 (digit (src i)) < n := by
  have hoffset := (scatter_scattered dst hdigit hhist (Nat.le_of_lt hi)).offset _ (hdigit (src i))
  have hone := length_ofDigit_le digit src (digit (src i)) (Nat.succ_le_of_lt hi)
  rw [first_succ, ofDigit_snoc, if_pos rfl, List.length_append, List.length_singleton] at hone
  have hstart := startOf_le digit (src.first n) (Nat.succ_le_of_lt (hdigit (src i)))
  rw [startOf_succ, startOf_all hdigit, length_first] at hstart
  omega

theorem scatterWords_eq (dst : Cells Nat) (hdigit : ∀ a, digit a < 256) (hn : n ≤ 2 ^ 32)
    {offsets : Cells Nat} (hoffsets : ∀ b, b < 256 → offsets b = startOf digit (src.first n) b)
    (h : Counts hist offsets) {i : Nat} (hi : i ≤ n) :
    (scatterWords digit src dst hist i).1 = (scatter digit src dst offsets i).1 ∧
      Counts (scatterWords digit src dst hist i).2 (scatter digit src dst offsets i).2 := by
  induction i with
  | zero => exact ⟨rfl, h⟩
  | succ i ih =>
    obtain ⟨hdst, hcounts⟩ := ih (Nat.le_of_succ_le hi)
    have hlt := scatter_offset_lt dst hdigit hoffsets hi
    have hpos : ((scatterWords digit src dst hist i).2 (digit (src i))).toNat =
        (scatter digit src dst offsets i).2 (digit (src i)) := by
      rw [hcounts _ (hdigit (src i)), BitVec.toNat_ofNat]
      exact Nat.mod_eq_of_lt (Nat.lt_of_lt_of_le hlt hn)
    unfold scatterWords scatter at hdst hcounts hpos ⊢
    rw [List.range_succ, List.foldl_append, List.foldl_append]
    simp only [List.foldl_cons, List.foldl_nil]
    exact ⟨by rw [hdst, hpos], hcounts.store _ (hcounts.succ (hdigit (src i)))⟩

theorem radixPassWords_eq (hdigit : ∀ a, digit a < 256) (hn : n ≤ 2 ^ 32) (src dst : Cells Nat)
    (hist : Histogram) : (radixPassWords digit n src dst hist).1 = radixPass digit n src dst := by
  have hcount := countWords_counts hdigit src n (zeroWords_counts hist)
  have hoffset := (offsetWords_counts hcount (Nat.le_refl 256)).1
  refine (scatterWords_eq dst hdigit hn (fun b hb => ?_) hoffset (Nat.le_refl n)).1
  rw [(startOffsets_eq (countDigits_eq digit src n) 256).2 b, if_pos hb]

theorem passes_eq {digit : Nat → Nat → Nat} {passes : Nat}
    (hdigit : ∀ p a, p < passes → digit p a < 256) (hn : n ≤ 2 ^ 32) (s : RadixState) :
    let out := (List.range passes).foldl (fun s pass => RadixState.pass (digit pass) n s) s
    (out.src, out.dst) = radixPasses digit n s.src s.dst passes := by
  induction passes with
  | zero => rfl
  | succ p ih =>
    have hrec := ih fun q a hq => hdigit q a (Nat.lt_succ_of_lt hq)
    dsimp only at hrec ⊢
    rw [List.range_succ, List.foldl_append, List.foldl_cons, List.foldl_nil, radixPasses, ← hrec]
    exact congrArg (·, _) (radixPassWords_eq (hdigit p · (Nat.lt_succ_self p)) hn _ _ _)

theorem emitIndexRadixWords_eq {digit : Nat → Nat → Nat} {passes : Nat}
    (hdigit : ∀ p a, p < passes → digit p a < 256) (hn : n ≤ 2 ^ 32) (idx idx2 : Cells Nat)
    (hist : Histogram) :
    emitIndexRadixWords digit passes n idx idx2 hist = emitIndexRadix digit passes n idx idx2 := by
  have h := passes_eq hdigit hn ⟨idx, idx2, hist⟩
  unfold emitIndexRadixWords emitIndexRadix
  dsimp only at h ⊢
  rw [← h]

/-- A word is no offset from slot 2^32 on. -/
theorem radixPassWords_rest (digit : Nat → Nat) (n : Nat) (src dst : Cells Nat) (hist : Histogram)
    {k : Nat} (hk : 2 ^ 32 ≤ k) : (radixPassWords digit n src dst hist).1 k = dst k := by
  unfold radixPassWords
  generalize (offsetWords _ 256).1 = offsets
  induction n with
  | zero => rfl
  | succ n ih =>
    unfold scatterWords at ih ⊢
    rw [List.range_succ, List.foldl_append, List.foldl_cons, List.foldl_nil]
    dsimp only
    have hlt := BitVec.isLt (((List.range n).foldl (fun (s : Cells Nat × Histogram) i =>
      (s.1.store (s.2 (digit (src i))).toNat (src i),
        s.2.store (digit (src i)) (s.2 (digit (src i)) + 1))) (dst, offsets)).2 (digit (src n)))
    rw [store_other _ _ (Nat.ne_of_gt (Nat.lt_of_lt_of_le hlt hk))]
    exact ih

end Words

/-! ## The stable order -/

section Stable

variable {t : ElemType} {idx : Cells Nat} {n : Nat}

/-- The integer a key stands for. -/
def keyValue (t : ElemType) (x : BitVec t.bits) : Int :=
  if t.sortKind = .unsigned then x.toNat else x.toInt

def keyLe (t : ElemType) (descending : Bool) (key : Nat → BitVec t.bits) (a b : Nat) : Bool :=
  if descending then decide (keyValue t (key b) ≤ keyValue t (key a))
  else decide (keyValue t (key a) ≤ keyValue t (key b))

/-- The index with its first `n` rows in the order of their keys, the rows of one key in the order
they were in. -/
def stablySorted (t : ElemType) (descending : Bool) (key : Nat → BitVec t.bits) (idx : Cells Nat)
    (n : Nat) : Cells Nat :=
  fun k => ((idx.first n).mergeSort (keyLe t descending key)).getD k (idx k)

theorem rank_eq (ht : t.sortKind ≠ .float) (x : BitVec t.bits) :
    t.sortKind.rank x = some (keyValue t x) := by
  unfold keyValue
  cases hk : t.sortKind with
  | signed => rfl
  | unsigned => rfl
  | float => exact absurd hk ht

theorem before_iff_keyLe (ht : t.sortKind ≠ .float) (descending : Bool) (key : Nat → BitVec t.bits)
    (a b : Nat) : emitSortBefore t.sortKind descending (key a) (key b) a b = true ↔
      keyLe t descending key a b = true ∧ (keyLe t descending key b a = true → a < b) := by
  rw [emitSortBefore_iff, rank_eq ht, rank_eq ht]
  simp only [Option.some.injEq, exists_eq_left', exists_and_left, keyLe, rankLt]
  cases descending with
  | false =>
    simp only [Bool.false_eq_true, if_false, decide_eq_true_eq]
    omega
  | true =>
    simp only [if_true, decide_eq_true_eq]
    omega

theorem keyLe_trans (descending : Bool) (key : Nat → BitVec t.bits) (a b c : Nat)
    (hab : keyLe t descending key a b = true) (hbc : keyLe t descending key b c = true) :
    keyLe t descending key a c = true := by
  unfold keyLe at *
  cases descending with
  | false =>
    simp only [Bool.false_eq_true, if_false, decide_eq_true_eq] at *
    exact Int.le_trans hab hbc
  | true =>
    simp only [if_true, decide_eq_true_eq] at *
    exact Int.le_trans hbc hab

theorem keyLe_total (descending : Bool) (key : Nat → BitVec t.bits) (a b : Nat) :
    (keyLe t descending key a b || keyLe t descending key b a) = true := by
  unfold keyLe
  rw [Bool.or_eq_true]
  cases descending with
  | false =>
    simp only [Bool.false_eq_true, if_false, decide_eq_true_eq]
    exact Int.le_total _ _
  | true =>
    simp only [if_true, decide_eq_true_eq]
    exact Int.le_total _ _

/-- There is only one way to sort. -/
theorem Sorts.eq_stablySorted (ht : t.sortKind ≠ .float) {descending : Bool}
    {key : Nat → BitVec t.bits} (hstart : (idx.first n).Pairwise (· < ·)) {out : Cells Nat}
    (h : Sorts (fun a b => emitSortBefore t.sortKind descending (key a) (key b) a b = true) n idx
      out) : out = stablySorted t descending key idx n := by
  have hsorted : (out.first n).Pairwise fun a b =>
      keyLe t descending key a b = true ∧ (keyLe t descending key b a = true → a < b) := by
    refine pairwise_first.mpr fun i j hij hj => ?_
    exact (before_iff_keyLe ht descending key _ _).mp (h.sorted i j hij hj)
  have hmerge := mergeSort_ties (keyLe_trans descending key) (keyLe_total descending key) hstart
  have hlist : out.first n = (idx.first n).mergeSort (keyLe t descending key) := by
    refine List.Perm.eq_of_pairwise (fun a b _ _ hab hba => ?_) hsorted hmerge
      (h.rearranges.perm.trans (List.mergeSort_perm _ _).symm)
    exact absurd (hab.2 hba.1) (Nat.lt_asymm (hba.2 hab.1))
  funext k
  unfold stablySorted
  rw [← hlist, List.getD_eq_getElem?_getD]
  by_cases hk : k < n
  · simp [first, hk]
  · rw [List.getElem?_eq_none (by rw [length_first]; omega), Option.getD_none]
    exact h.rearranges.rest k (Nat.le_of_not_lt hk)

end Stable

/-! ## Agreement -/

/-- What `emit_sort` allocates. `cap` is an `int`, and nothing is known of what the second index
array and the histogram hold. -/
structure SortScratch where
  cap : Nat
  isInt : cap < 2 ^ 31
  idx2 : Cells Nat
  hist : Histogram

/-- On the index of `count` different rows in increasing order. -/
theorem index_sorts_agree {t : ElemType} (ht : t.sortKind ≠ .float) (hw : t.bits ≤ 64)
    (descending : Bool) (key : Nat → BitVec t.bits) (scratch : SortScratch) {count : Nat}
    (hcount : count ≤ scratch.cap) {idx : Cells Nat}
    (hstart : (idx.first count).Pairwise (· < ·)) :
    let before := fun a b => emitSortBefore t.sortKind descending (key a) (key b) a b
    let digit := fun pass row =>
      emitRadixByte (emitRadixTransform t.sortKind descending (key row)) pass
    let out := stablySorted t descending key idx count
    emitIndexInsertion before idx count = out ∧ emitIndexHeapsort before idx count = out ∧
      emitIndexRadixWords digit (t.bits / 8) count idx scratch.idx2 scratch.hist = out := by
  have hpasses : 0 < sortRadixPasses t.sortKind t.bits := by
    revert ht hw
    rcases t with ⟨w, s⟩ | _ | _ | _ | _
    · cases w <;> cases s <;> decide
    all_goals decide
  have hd : Distinct count idx := hstart.imp fun h => Nat.ne_of_lt h
  have ho := strictOn_before t.sortKind descending key
  have hrank : ∀ k, k < count → (t.sortKind.rank (key (idx k))).isSome = true := by
    intro k _
    rw [rank_eq ht]
    rfl
  have hdigit : ∀ pass row, pass < t.bits / 8 →
      emitRadixByte (emitRadixTransform t.sortKind descending (key row)) pass < 256 := by
    intro pass row hp
    obtain ⟨-, hdvd, hpos, -, -⟩ := radix_types hpasses
    rw [emitRadixByte_eq hdvd hpos _ hp]
    exact Nat.mod_lt _ (by decide)
  have hn : count ≤ 2 ^ 32 := by
    have hcap := scratch.isInt
    omega
  dsimp only
  refine ⟨(emitIndexInsertion_sorts ho hrank hd).eq_stablySorted ht hstart,
    (emitIndexHeapsort_sorts ho hrank hd).eq_stablySorted ht hstart, ?_⟩
  rw [emitIndexRadixWords_eq hdigit hn]
  exact (emitIndexRadix_sorts_keys hpasses descending key hstart _).eq_stablySorted ht hstart

/-- Three rows of which two have one key, downwards. -/
theorem index_sorts_agree_ties :
    let key : Nat → BitVec 8 := fun row => if row = 1 then -1 else 7
    let out := emitIndexRadixWords (fun pass row =>
      emitRadixByte (emitRadixTransform .signed true (key row)) pass) 1 3 id (fun _ => 9) fun _ => 5
    out = stablySorted (.int .w8 true) true key id 3 ∧ out.first 3 = [0, 2, 1] := by
  refine ⟨(index_sorts_agree (t := .int .w8 true) (by decide) (by decide) true
    (fun row => if row = 1 then -1 else 7) ⟨3, by decide, fun _ => 9, fun _ => 5⟩
    (Nat.le_refl 3) (by decide)).2.2, by decide +kernel⟩

end Arche.Codegen.IndexSort
