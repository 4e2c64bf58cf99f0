import Mathlib.Tactic.Common

/-!
# Words with a mark between them

A text is cut into words at a mark, and the words are the text again with the mark between them. The
first places of a text are its first words, the last of them cut (`take_eq_take_iff`).
-/

namespace Arche.Lib

variable {α : Type}

variable {mark : α}

/-- The words that `n` places have room for, with a mark between them. The last one is cut. -/
def cutWords : Nat → List (List α) → List (List α)
  | _, [] => []
  | n, w :: ws => if n ≤ w.length then [w.take n] else w :: cutWords (n - w.length - 1) ws

theorem cutWords_ne_nil {n : Nat} {ws : List (List α)} (h : ws ≠ []) : cutWords n ws ≠ [] := by
  cases ws with
  | nil => exact absurd rfl h
  | cons w ws =>
    rw [cutWords]
    split <;> exact List.cons_ne_nil _ _

theorem intercalate_cutWords (n : Nat) (ws : List (List α)) :
    [mark].intercalate (cutWords n ws) = ([mark].intercalate ws).take n := by
  induction ws generalizing n with
  | nil => simp [cutWords]
  | cons w ws ih =>
    by_cases hroom : n ≤ w.length
    · rw [cutWords, if_pos hroom, List.intercalate_singleton]
      by_cases hws : ws = []
      · rw [hws, List.intercalate_singleton]
      · rw [List.intercalate_cons_of_ne_nil hws, List.append_assoc,
          List.take_append_of_le_length hroom]
    · rw [cutWords, if_neg hroom]
      by_cases hws : ws = []
      · rw [hws, cutWords, List.intercalate_singleton, List.take_of_length_le (by omega)]
      · obtain ⟨m, rfl⟩ : ∃ m, n = w.length + (m + 1) := ⟨n - w.length - 1, by omega⟩
        have hrest : w.length + (m + 1) - w.length - 1 = m := by omega
        rw [List.intercalate_cons_of_ne_nil (cutWords_ne_nil hws),
          List.intercalate_cons_of_ne_nil hws, hrest, ih, List.append_assoc, List.append_assoc,
          List.take_length_add_append, List.singleton_append, List.singleton_append,
          List.take_succ_cons]

theorem notMem_cutWords {n : Nat} {ws : List (List α)} (h : ∀ w ∈ ws, mark ∉ w) :
    ∀ w ∈ cutWords n ws, mark ∉ w := by
  induction ws generalizing n with
  | nil => simp [cutWords]
  | cons w ws ih =>
    have hw := h w List.mem_cons_self
    rw [cutWords]
    split
    · intro v hv hmark
      rw [List.mem_singleton.mp hv] at hmark
      exact hw (List.mem_of_mem_take hmark)
    · intro v hv
      rcases List.mem_cons.mp hv with rfl | hv
      · exact hw
      · exact ih (fun u hu => h u (List.mem_cons_of_mem _ hu)) v hv

variable [DecidableEq α]

theorem notMem_splitOn (l : List α) : ∀ w ∈ l.splitOn mark, mark ∉ w := by
  induction l with
  | nil => simp [List.splitOn_nil]
  | cons a l ih =>
    rw [List.splitOn_cons_eq_if_modifyHead]
    split
    · simpa using ih
    · next hne =>
      obtain ⟨w, ws, hws⟩ := List.exists_cons_of_ne_nil (List.splitOn_ne_nil mark l)
      rw [hws] at ih
      rw [hws, List.modifyHead_cons]
      intro v hv
      rcases List.mem_cons.mp hv with rfl | hv
      · intro hmark
        rcases List.mem_cons.mp hmark with rfl | hmark
        · exact hne (beq_self_eq_true mark)
        · exact ih w List.mem_cons_self hmark
      · exact ih v (List.mem_cons_of_mem _ hv)

/-- Words without the mark are read back from the text with a mark between them. -/
theorem intercalate_inj {ws vs : List (List α)} (hws : ws ≠ []) (hvs : vs ≠ [])
    (hmark : ∀ w ∈ ws, mark ∉ w) (hmark' : ∀ w ∈ vs, mark ∉ w) :
    [mark].intercalate ws = [mark].intercalate vs ↔ ws = vs := by
  refine ⟨fun h => ?_, fun h => h ▸ rfl⟩
  rw [← List.splitOn_intercalate mark hmark hws, h, List.splitOn_intercalate mark hmark' hvs]

/-- The first `n` places of a text are its words, as far as there is room. -/
theorem take_eq_intercalate (mark : α) (n : Nat) (l : List α) :
    l.take n = [mark].intercalate (cutWords n (l.splitOn mark)) := by
  rw [intercalate_cutWords, List.intercalate_splitOn]

theorem cutWords_splitOn_ne_nil (mark : α) (n : Nat) (l : List α) :
    cutWords n (l.splitOn mark) ≠ [] :=
  cutWords_ne_nil (List.splitOn_ne_nil mark l)

theorem eq_take_iff (mark : α) (n : Nat) (l r : List α) :
    l = r.take n ↔ l.splitOn mark = cutWords n (r.splitOn mark) := by
  have hl : l = [mark].intercalate (l.splitOn mark) := (List.intercalate_splitOn mark).symm
  rw [← intercalate_inj (List.splitOn_ne_nil mark l) (cutWords_splitOn_ne_nil mark n r)
    (notMem_splitOn l) (notMem_cutWords (notMem_splitOn r)), ← hl, ← take_eq_intercalate]

/-- The first `n` places of two texts are the same if and only if their words are, as far as there
is room. -/
theorem take_eq_take_iff (mark : α) (n : Nat) (l r : List α) :
    l.take n = r.take n ↔ cutWords n (l.splitOn mark) = cutWords n (r.splitOn mark) := by
  rw [take_eq_intercalate mark n l, take_eq_intercalate mark n r]
  exact intercalate_inj (cutWords_splitOn_ne_nil mark n l) (cutWords_splitOn_ne_nil mark n r)
    (notMem_cutWords (notMem_splitOn l)) (notMem_cutWords (notMem_splitOn r))

end Arche.Lib
