import Mathlib.Data.List.Basic

/-!
# Filling a buffer of fixed size

`fill limit f out xs` appends the text of one item after the other and stops at the first item that
finds the buffer at its limit. What gets into it is a part of the items from the front, `taken`.

`taken_eq_self_iff`: nothing is left out exactly if all items but the last stay below the limit.
-/

namespace Arche.Lib

variable {α β : Type}

/-- The loop: an item is appended as long as the text is below the limit. -/
def fill (limit : Nat) (f : α → List β) : List β → List α → List β
  | out, [] => out
  | out, x :: xs => if out.length < limit then fill limit f (out ++ f x) xs else out

/-- The items that get in, if `pos` places are in use. -/
def taken (limit : Nat) (f : α → List β) : Nat → List α → List α
  | _, [] => []
  | pos, x :: xs => if pos < limit then x :: taken limit f (pos + (f x).length) xs else []

variable {limit : Nat} {f : α → List β}

theorem fill_eq (out : List β) (xs : List α) :
    fill limit f out xs = out ++ (taken limit f out.length xs).flatMap f := by
  induction xs generalizing out with
  | nil => simp [fill, taken]
  | cons x xs ih =>
    rw [fill, taken]
    split
    · rw [ih, List.length_append, List.flatMap_cons, List.append_assoc]
    · simp

theorem taken_isPrefix (pos : Nat) (xs : List α) : taken limit f pos xs <+: xs := by
  induction xs generalizing pos with
  | nil => exact List.prefix_rfl
  | cons x xs ih =>
    rw [taken]
    split
    · exact (List.prefix_cons_inj x).mpr (ih _)
    · exact List.nil_prefix

theorem taken_eq_self_iff {pos : Nat} {xs : List α} :
    taken limit f pos xs = xs ↔ xs = [] ∨ pos + (xs.dropLast.flatMap f).length < limit := by
  induction xs generalizing pos with
  | nil => simp [taken]
  | cons x xs ih =>
    rw [taken]
    split
    · next hroom =>
      rw [List.cons_inj_right, ih]
      cases xs with
      | nil => simpa using hroom
      | cons y ys => simp [Nat.add_assoc]
    · next hfull => simpa using Nat.le_trans (Nat.not_lt.mp hfull) (Nat.le_add_right _ _)

theorem length_le_length_flatMap (hpos : ∀ x, 1 ≤ (f x).length) (xs : List α) :
    xs.length ≤ (xs.flatMap f).length := by
  induction xs with
  | nil => exact Nat.zero_le _
  | cons x xs ih =>
    rw [List.flatMap_cons, List.length_append, List.length_cons, Nat.add_comm]
    exact Nat.add_le_add (hpos x) ih

/-- The text ends less than one item past the limit. -/
theorem length_flatMap_taken_le {w : Nat} (hw : ∀ x, (f x).length ≤ w) (pos : Nat)
    (hpos : pos ≤ limit + w) (xs : List α) :
    pos + ((taken limit f pos xs).flatMap f).length ≤ limit + w := by
  induction xs generalizing pos with
  | nil => simpa [taken] using hpos
  | cons x xs ih =>
    rw [taken]
    split
    · next hroom =>
      rw [List.flatMap_cons, List.length_append, ← Nat.add_assoc]
      exact ih _ (by have := hw x; omega)
    · simpa using hpos

end Arche.Lib
