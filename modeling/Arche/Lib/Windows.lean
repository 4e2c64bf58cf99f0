import Mathlib.Data.List.Basic
import Mathlib.Data.Nat.Find

/-!
# Windows over a list

A list is read in windows of given sizes, each from where the one before ended. If no size is `0`
the windows up to the first empty one are the list.
-/

namespace Arche.Lib

variable {α : Type} (l : List α) (size : Nat → Nat)

/-- Where window `i` starts. -/
def windowStart : Nat → Nat
  | 0 => 0
  | i + 1 => windowStart i + ((l.drop (windowStart i)).take (size i)).length

def window (i : Nat) : List α := (l.drop (windowStart l size i)).take (size i)

theorem windowStart_succ (i : Nat) :
    windowStart l size (i + 1) = windowStart l size i + (window l size i).length := rfl

theorem windowStart_le (i : Nat) : windowStart l size i ≤ l.length := by
  induction i with
  | zero => exact Nat.zero_le _
  | succ i ih =>
    rw [windowStart_succ, window, List.length_take, List.length_drop]
    omega

/-- The windows before `n` are the list before `n`'s start. -/
theorem windows_eq_take (n : Nat) :
    (List.range n).flatMap (window l size) = l.take (windowStart l size n) := by
  induction n with
  | zero => rfl
  | succ n ih =>
    rw [List.range_succ, List.flatMap_append, ih, List.flatMap_singleton, windowStart_succ,
      List.take_add]
    exact congrArg _ (List.prefix_iff_eq_take.1 (List.take_prefix _ _))

variable {l size}

theorem window_eq_nil_iff (hsize : ∀ i, 0 < size i) (i : Nat) :
    window l size i = [] ↔ windowStart l size i = l.length := by
  have hle := windowStart_le l size i
  have hpos := hsize i
  rw [← List.length_eq_zero_iff, window, List.length_take, List.length_drop]
  omega

/-- Some window is empty. -/
theorem exists_window_eq_nil (hsize : ∀ i, 0 < size i) : ∃ n, window l size n = [] := by
  have hgrow : ∀ i, i ≤ windowStart l size i ∨ windowStart l size i = l.length := by
    intro i
    induction i with
    | zero => exact .inl (Nat.zero_le _)
    | succ i ih =>
      have hle := windowStart_le l size (i + 1)
      rw [windowStart_succ] at hle ⊢
      by_cases hempty : window l size i = []
      · have hend := (window_eq_nil_iff hsize i).1 hempty
        exact .inr (by omega)
      · have hpos := List.length_pos_iff.2 hempty
        omega
  refine ⟨l.length, (window_eq_nil_iff hsize _).2 ?_⟩
  have hle := windowStart_le l size l.length
  have hlen := hgrow l.length
  omega

/-- The windows up to the first empty one are the list. -/
theorem windows_cover (hsize : ∀ i, 0 < size i) :
    ∃ n, window l size n = [] ∧ (∀ i < n, window l size i ≠ []) ∧
      (List.range n).flatMap (window l size) = l := by
  classical
  have hex := exists_window_eq_nil (l := l) hsize
  refine ⟨Nat.find hex, Nat.find_spec hex, fun i hi => Nat.find_min hex hi, ?_⟩
  rw [windows_eq_take, (window_eq_nil_iff hsize _).1 (Nat.find_spec hex), List.take_length]

end Arche.Lib
