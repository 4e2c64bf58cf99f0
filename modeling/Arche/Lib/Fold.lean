import Mathlib.Data.List.Induction
import Mathlib.Tactic.Common

/-!
# Folds in another order

A fold of an associative and commutative operation, started at an element with
`op e e = e`, may be split: over four lanes that are folded together at the end, or over
chunks each of which starts at `e` again. No identity law is needed.

A fold that keeps the best candidate so far finds the first of the best ones
(`keepBest_spec`).
-/

namespace Arche.Lib

section Fold

variable {α : Type} {op : α → α → α} {e : α}

/-- The lanes after `q` rounds over `f`. -/
def lanes (op : α → α → α) (e : α) (f : Nat → α) : Nat → Fin 4 → α
  | 0 => fun _ => e
  | q + 1 => fun l => op (lanes op e f q l) (f (4 * q + l))

/-- The lanes folded together. -/
def across (op : α → α → α) (v : Fin 4 → α) : α := op (op (v 0) (v 1)) (op (v 2) (v 3))

/-- The end of chunk `t` of `k` over `n` elements; the last one takes the rest. -/
def chunkEnd (n k t : Nat) : Nat := if t = k - 1 then n else (t + 1) * (n / k)

/-- The fold over the elements from `lo` to `hi`. -/
def foldRange (op : α → α → α) (e : α) (f : Nat → α) (lo hi : Nat) : α :=
  ((List.range' lo (hi - lo)).map f).foldl op e

/-- The folds of the chunks, folded from the first one on. -/
def chunked (op : α → α → α) (e : α) (f : Nat → α) (n k : Nat) : α :=
  let out (t : Nat) : α := foldRange op e f (t * (n / k)) (chunkEnd n k t)
  ((List.range' 1 (k - 1)).map out).foldl op (out 0)

/-- Every element is in exactly one chunk. -/
theorem chunk_unique {n k i : Nat} (hk : 1 ≤ k) (hi : i < n) :
    ∃! t, t < k ∧ t * (n / k) ≤ i ∧ i < chunkEnd n k t := by
  have hlast : chunkEnd n k (k - 1) = n := if_pos rfl
  have hinner : ∀ t, t ≠ k - 1 → chunkEnd n k t = (t + 1) * (n / k) := fun t ht => if_neg ht
  have hexists : ∃ t, t < k ∧ t * (n / k) ≤ i ∧ i < chunkEnd n k t := by
    by_cases hi' : (k - 1) * (n / k) ≤ i
    · exact ⟨k - 1, by omega, hi', hlast.symm ▸ hi⟩
    · have hlt : i / (n / k) < k - 1 :=
        Nat.div_lt_of_lt_mul (Nat.mul_comm _ _ ▸ Nat.lt_of_not_le hi')
      have hpos : 0 < n / k := by
        by_contra hzero
        rw [Nat.eq_zero_of_not_pos hzero, Nat.mul_zero] at hi'
        exact hi' (Nat.zero_le i)
      refine ⟨i / (n / k), by omega, Nat.div_mul_le_self _ _, ?_⟩
      rw [hinner _ (Nat.ne_of_lt hlt)]
      exact Nat.lt_mul_of_div_lt (Nat.lt_succ_self _) hpos
  -- a chunk ends where the next one starts
  have hafter : ∀ t t', t < t' → t' < k → i < chunkEnd n k t → ¬ t' * (n / k) ≤ i := by
    intro t t' htt ht hlt hle
    rw [hinner t (by omega)] at hlt
    have hmono := Nat.mul_le_mul_right (n / k) (Nat.succ_le_of_lt htt)
    exact Nat.lt_irrefl i (Nat.lt_of_lt_of_le hlt (Nat.le_trans hmono hle))
  obtain ⟨t, ht, hlo, hhi⟩ := hexists
  refine ⟨t, ⟨ht, hlo, hhi⟩, ?_⟩
  rintro t' ⟨ht', hlo', hhi'⟩
  rcases Nat.lt_trichotomy t' t with h | h | h
  · exact absurd hlo (hafter t' t h ht hhi')
  · exact h
  · exact absurd hlo' (hafter t t' h ht' hhi)

theorem foldl_eq_self {β : Type} {step : α → β → α} {xs : List β} (h : ∀ x ∈ xs, step e x = e) :
    xs.foldl step e = e := by
  induction xs with
  | nil => rfl
  | cons x xs ih =>
    rw [List.foldl_cons, h x List.mem_cons_self]
    exact ih fun y hy => h y (List.mem_cons_of_mem x hy)

variable [Std.Associative op] [Std.Commutative op]

theorem op_foldl_self (he : op e e = e) (xs : List α) : op (xs.foldl op e) e = xs.foldl op e := by
  have hassoc : xs.foldl op (op e e) = op e (xs.foldl op e) := List.foldl_assoc
  have hcomm : op (xs.foldl op e) e = op e (xs.foldl op e) := Std.Commutative.comm _ _
  rw [hcomm, ← hassoc, he]

theorem foldl_op_foldl (he : op e e = e) (xs ys : List α) :
    op (xs.foldl op e) (ys.foldl op e) = (xs ++ ys).foldl op e := by
  have hassoc : ys.foldl op (op (xs.foldl op e) e) = op (xs.foldl op e) (ys.foldl op e) :=
    List.foldl_assoc
  rw [← hassoc, op_foldl_self he, List.foldl_append]

theorem across_lanes (he : op e e = e) (f : Nat → α) (q : Nat) :
    across op (lanes op e f q) = ((List.range (4 * q)).map f).foldl op e := by
  induction q with
  | zero =>
    show op (op e e) (op e e) = e
    rw [he, he]
  | succ q ih =>
    have hrange : List.range (4 * (q + 1)) = List.range (4 * q) ++ [4 * q, 4 * q + 1, 4 * q + 2, 4 * q + 3] := by
      rw [Nat.mul_succ, List.range_add]
      rfl
    rw [hrange, List.map_append, List.foldl_append, ← ih]
    show op (op (op _ (f (4 * q + 0))) (op _ (f (4 * q + 1)))) (op (op _ (f (4 * q + 2))) (op _ (f (4 * q + 3)))) =
      op (op (op (op (across op (lanes op e f q)) (f (4 * q))) (f (4 * q + 1))) (f (4 * q + 2))) (f (4 * q + 3))
    unfold across
    ac_rfl

theorem foldRange_split (he : op e e = e) (f : Nat → α) {lo mid hi : Nat} (h1 : lo ≤ mid) (h2 : mid ≤ hi) :
    op (foldRange op e f lo mid) (foldRange op e f mid hi) = foldRange op e f lo hi := by
  have hrange : List.range' lo (mid - lo) ++ List.range' mid (hi - mid) = List.range' lo (hi - lo) := by
    have hmid : mid = lo + (mid - lo) := by omega
    have hlen : hi - lo = (mid - lo) + (hi - mid) := by omega
    rw [hlen]
    nth_rewrite 2 [hmid]
    exact List.range'_append_1
  unfold foldRange
  rw [foldl_op_foldl he, ← List.map_append, hrange]

/-- Chunks that are folded on their own come to the fold over all. -/
theorem chunked_eq (he : op e e = e) (f : Nat → α) (n : Nat) {k : Nat} (hk : 1 ≤ k) :
    chunked op e f n k = ((List.range n).map f).foldl op e := by
  have hmul : k * (n / k) ≤ n := Nat.mul_div_le n k
  have hend : ∀ t, t ≤ k - 1 → t * (n / k) ≤ chunkEnd n k t := by
    intro t ht
    unfold chunkEnd
    split
    · exact Nat.le_trans (Nat.mul_le_mul_right _ (by omega)) hmul
    · exact Nat.mul_le_mul_right _ (by omega)
  have hfirst : ∀ m, m ≤ k - 1 →
      ((List.range' 1 m).map fun t => foldRange op e f (t * (n / k)) (chunkEnd n k t)).foldl op
        (foldRange op e f (0 * (n / k)) (chunkEnd n k 0)) = foldRange op e f 0 (chunkEnd n k m) := by
    intro m
    induction m with
    | zero =>
      intro _
      rw [Nat.zero_mul]
      rfl
    | succ m ih =>
      intro hm
      have hprev : chunkEnd n k m = (m + 1) * (n / k) := if_neg (by omega)
      rw [List.range'_concat, List.map_append, List.foldl_append, ih (by omega), hprev]
      have hone : 1 + 1 * m = m + 1 := by omega
      show op _ (foldRange op e f ((1 + 1 * m) * (n / k)) (chunkEnd n k (1 + 1 * m))) = _
      rw [hone]
      exact foldRange_split he f (Nat.zero_le _) (hend (m + 1) hm)
  have hlast : chunkEnd n k (k - 1) = n := if_pos rfl
  refine (hfirst (k - 1) (Nat.le_refl _)).trans ?_
  rw [hlast, foldRange, List.range_eq_range', Nat.sub_zero]

end Fold

/-! ## The running best -/

section Best

variable {ρ β : Type} (score : ρ → Nat) (value : ρ → β)

/-- A candidate of score 0 never wins. -/
def keepBest (s : Nat × β) (r : ρ) : Nat × β := if s.1 < score r then (score r, value r) else s

/-- Candidate `i` is the first one of the highest score. -/
structure FirstBest (rs : List ρ) (i : Nat) (r : ρ) : Prop where
  at_index : rs[i]? = some r
  pos : 0 < score r
  le : ∀ q ∈ rs, score q ≤ score r
  lt : ∀ (j : Nat) (q : ρ), j < i → rs[j]? = some q → score q < score r

variable {score value} {rs : List ρ} {i : Nat} {r : ρ}

theorem FirstBest.unique (h : FirstBest score rs i r) {j : Nat} {q : ρ}
    (h' : FirstBest score rs j q) : j = i ∧ q = r := by
  have hr := List.mem_of_getElem? h.at_index
  have hq := List.mem_of_getElem? h'.at_index
  have hle := h.le q hq
  have hle' := h'.le r hr
  rcases Nat.lt_trichotomy j i with hji | rfl | hij
  · have := h.lt j q hji h'.at_index
    omega
  · exact ⟨rfl, Option.some.inj (h'.at_index.symm.trans h.at_index)⟩
  · have := h'.lt i r hij h.at_index
    omega

theorem keepBest_spec (score : ρ → Nat) (value : ρ → β) (x : β) (rs : List ρ) :
    rs.foldl (keepBest score value) (0, x) = (0, x) ∧ (∀ r ∈ rs, score r = 0) ∨
      ∃ i r, FirstBest score rs i r ∧
        rs.foldl (keepBest score value) (0, x) = (score r, value r) := by
  induction rs using List.reverseRecOn with
  | nil => exact .inl ⟨rfl, fun r hr => nomatch hr⟩
  | append_singleton rs q ih =>
    rw [List.foldl_append, List.foldl_cons, List.foldl_nil]
    have hlast : (rs ++ [q])[rs.length]? = some q := by simp
    rcases ih with ⟨hfold, hnone⟩ | ⟨i, r, hbest, hfold⟩
    · rw [hfold]
      by_cases hq : 0 < score q
      · refine .inr ⟨rs.length, q, ⟨hlast, hq, fun r hr => ?_, fun j r hj hr => ?_⟩, if_pos hq⟩
        · rcases List.mem_append.mp hr with hr | hr
          · rw [hnone r hr]
            exact Nat.zero_le _
          · exact Nat.le_of_eq (congrArg score (List.mem_singleton.mp hr))
        · rw [List.getElem?_append_left hj] at hr
          rw [hnone r (List.mem_of_getElem? hr)]
          exact hq
      · refine .inl ⟨if_neg hq, fun r hr => ?_⟩
        rcases List.mem_append.mp hr with hr | hr
        · exact hnone r hr
        · rw [List.mem_singleton.mp hr]
          exact Nat.eq_zero_of_not_pos hq
    · rw [hfold]
      have hi := (List.getElem?_eq_some_iff.mp hbest.at_index).1
      by_cases hq : score r < score q
      · refine .inr ⟨rs.length, q, ⟨hlast, Nat.lt_of_le_of_lt (Nat.zero_le _) hq, fun p hp => ?_,
          fun j p hj hp => ?_⟩, if_pos hq⟩
        · rcases List.mem_append.mp hp with hp | hp
          · exact Nat.le_of_lt (Nat.lt_of_le_of_lt (hbest.le p hp) hq)
          · exact Nat.le_of_eq (congrArg score (List.mem_singleton.mp hp))
        · rw [List.getElem?_append_left hj] at hp
          exact Nat.lt_of_le_of_lt (hbest.le p (List.mem_of_getElem? hp)) hq
      · refine .inr ⟨i, r, ⟨?_, hbest.pos, fun p hp => ?_, fun j p hj hp => ?_⟩, if_neg hq⟩
        · rw [List.getElem?_append_left hi]
          exact hbest.at_index
        · rcases List.mem_append.mp hp with hp | hp
          · exact hbest.le p hp
          · rw [List.mem_singleton.mp hp]
            exact Nat.le_of_not_lt hq
        · rw [List.getElem?_append_left (Nat.lt_trans hj hi)] at hp
          exact hbest.lt j p hj hp

end Best

end Arche.Lib
