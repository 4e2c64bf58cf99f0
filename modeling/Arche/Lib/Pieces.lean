import Mathlib.Data.List.Basic
import Mathlib.Data.List.TakeWhile
import Mathlib.Tactic.Common

/-!
# Pieces of a text

A text is cut at a separator, and nothing behind the last separator is no piece. A reader with a
cursor finds the same pieces: the one at the cursor ends before the next separator, and the cursor
goes on behind that (`pieces_of_ne_nil`). In the end it stands one behind the text exactly if the
text does not end with a separator (`length_of_afterPiece_nil`).
-/

namespace Arche.Lib

variable {α : Type} [DecidableEq α] (sep : α)

def pieces (l : List α) : List (List α) :=
  let parts := l.splitOn sep
  if parts.getLast? = some [] then parts.dropLast else parts

/-- The piece at the head of a text. -/
def firstPiece (l : List α) : List α := l.takeWhile (· ≠ sep)

/-- What follows behind the separator. -/
def afterPiece (l : List α) : List α := l.drop ((firstPiece sep l).length + 1)

variable {sep} {l : List α}

theorem pieces_nil : pieces sep [] = [] := rfl

theorem sep_notMem_firstPiece : sep ∉ firstPiece sep l := by
  intro h
  have hne := List.mem_takeWhile_imp h
  exact of_decide_eq_true hne rfl

/-- A text is its first piece, or that and a separator and the rest. -/
theorem eq_firstPiece_or (sep : α) (l : List α) :
    l = firstPiece sep l ∧ afterPiece sep l = [] ∨
      l = firstPiece sep l ++ sep :: afterPiece sep l := by
  induction l with
  | nil => exact .inl ⟨rfl, rfl⟩
  | cons a l ih =>
    unfold afterPiece firstPiece at ih ⊢
    rw [List.takeWhile_cons]
    by_cases ha : a = sep
    · rw [if_neg (by simpa using ha)]
      exact .inr (by rw [ha]; rfl)
    · rw [if_pos (by simpa using ha)]
      rcases ih with ⟨hl, hrest⟩ | hl
      · exact .inl ⟨congrArg (a :: ·) hl, hrest⟩
      · exact .inr (congrArg (a :: ·) hl)

/-- A text with a separator in it, cut at the first one. -/
theorem eq_of_mem (h : sep ∈ l) : l = firstPiece sep l ++ sep :: afterPiece sep l := by
  rcases eq_firstPiece_or sep l with ⟨hl, -⟩ | hl
  · exact absurd (hl ▸ h) sep_notMem_firstPiece
  · exact hl

theorem firstPiece_of_notMem (h : sep ∉ l) : firstPiece sep l = l := by
  rcases eq_firstPiece_or sep l with ⟨hl, -⟩ | hl
  · exact hl.symm
  · exact absurd (by rw [hl]; simp) h

theorem splitOn_of_mem (h : sep ∈ l) :
    l.splitOn sep = firstPiece sep l :: (afterPiece sep l).splitOn sep := by
  conv_lhs => rw [eq_of_mem h]
  rw [List.splitOn_append_cons_self, List.splitOn_eq_singleton sep_notMem_firstPiece]
  rfl

theorem pieces_of_ne_nil (h : l ≠ []) :
    pieces sep l = firstPiece sep l :: pieces sep (afterPiece sep l) := by
  by_cases hmem : sep ∈ l
  · have hne := List.splitOn_ne_nil sep (afterPiece sep l)
    unfold pieces
    dsimp only
    rw [splitOn_of_mem hmem, List.getLast?_cons_of_ne_nil hne, List.dropLast_cons_of_ne_nil hne]
    split <;> rfl
  · have hrest : afterPiece sep l = [] := by
      rw [afterPiece, firstPiece_of_notMem hmem]
      exact List.drop_eq_nil_of_le (Nat.le_succ _)
    rw [hrest, pieces_nil, firstPiece_of_notMem hmem, pieces, List.splitOn_eq_singleton hmem]
    exact if_neg fun hlast => h (Option.some.inj hlast)

theorem getLast?_of_afterPiece (h : afterPiece sep l ≠ []) :
    l.getLast? = (afterPiece sep l).getLast? := by
  rcases eq_firstPiece_or sep l with ⟨-, hrest⟩ | hl
  · exact absurd hrest h
  · conv_lhs => rw [hl]
    rw [List.getLast?_append, List.getLast?_cons_of_ne_nil h, List.getLast?_eq_some_getLast h]
    rfl

theorem length_of_afterPiece_nil (hrest : afterPiece sep l = []) :
    l.getLast? = some sep ∧ l.length = (firstPiece sep l).length + 1 ∨
      l.getLast? ≠ some sep ∧ l.length = (firstPiece sep l).length := by
  rcases eq_firstPiece_or sep l with ⟨hl, -⟩ | hl
  · refine .inr ⟨fun hlast => ?_, congrArg List.length hl⟩
    have hmem := List.mem_of_getLast? hlast
    rw [hl] at hmem
    exact sep_notMem_firstPiece hmem
  · rw [hrest] at hl
    refine .inl ⟨?_, ?_⟩
    · rw [hl, List.getLast?_concat]
    · conv_lhs => rw [hl]
      rw [List.length_append]
      rfl

end Arche.Lib
