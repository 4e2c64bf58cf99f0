import Mathlib.Data.List.Basic

/-!
# Reading line by line

`fgets` gives a text up to the next newline, or what the buffer takes of it. A text made of lines
that fit the buffer is read as those lines.
-/

namespace Arche.Lib

/-- `fgets` with a buffer of `n + 1` bytes: what is read, and what is left. -/
def fgets : Nat → List Char → List Char × List Char
  | 0, t => ([], t)
  | _ + 1, [] => ([], [])
  | n + 1, c :: t => if c = '\n' then ([c], t) else (c :: (fgets n t).1, (fgets n t).2)

/-- What a loop over `fgets` reads; each call takes at least a byte. -/
def fgetsAll (n : Nat) : Nat → List Char → List (List Char)
  | 0, _ => []
  | _ + 1, [] => []
  | fuel + 1, c :: t => (fgets n (c :: t)).1 :: fgetsAll n fuel (fgets n (c :: t)).2

def fileLines (n : Nat) (t : List Char) : List (List Char) := fgetsAll n t.length t

def unlines (lines : List (List Char)) : List Char := lines.flatMap (· ++ ['\n'])

theorem fgets_line {n : Nat} {l : List Char} (hl : '\n' ∉ l) (hn : l.length < n) (t : List Char) :
    fgets n (l ++ '\n' :: t) = (l ++ ['\n'], t) := by
  induction l generalizing n with
  | nil =>
    obtain ⟨m, rfl⟩ := Nat.exists_eq_succ_of_ne_zero (Nat.ne_of_gt hn)
    rfl
  | cons c l ih =>
    rw [List.mem_cons, not_or] at hl
    obtain ⟨m, rfl⟩ := Nat.exists_eq_succ_of_ne_zero (Nat.ne_of_gt (Nat.zero_lt_of_lt hn))
    rw [List.cons_append, fgets, if_neg (Ne.symm hl.1), ih hl.2 (Nat.lt_of_succ_lt_succ hn)]
    rfl

theorem fgetsAll_unlines {n fuel : Nat} {lines : List (List Char)} (hl : ∀ l ∈ lines, '\n' ∉ l)
    (hn : ∀ l ∈ lines, l.length < n) (hfuel : (unlines lines).length ≤ fuel) :
    fgetsAll n fuel (unlines lines) = lines.map (· ++ ['\n']) := by
  induction lines generalizing fuel with
  | nil => cases fuel <;> rfl
  | cons l lines ih =>
    have htext : unlines (l :: lines) = l ++ '\n' :: unlines lines := by simp [unlines]
    rw [htext, List.length_append, List.length_cons] at hfuel
    obtain ⟨m, rfl⟩ : ∃ m, fuel = m + 1 := ⟨fuel - 1, by omega⟩
    obtain ⟨c, t, hct⟩ : ∃ c t, l ++ '\n' :: unlines lines = c :: t := by
      cases l with
      | nil => exact ⟨_, _, rfl⟩
      | cons c l => exact ⟨_, _, rfl⟩
    rw [htext, hct, fgetsAll, ← hct, fgets_line (hl l List.mem_cons_self) (hn l List.mem_cons_self),
      List.map_cons]
    have hrest : (unlines lines).length ≤ m := by omega
    rw [ih (fun l h => hl l (List.mem_cons_of_mem _ h)) (fun l h => hn l (List.mem_cons_of_mem _ h))
      hrest]

/-- A text of lines that fit the buffer. -/
theorem fileLines_unlines {n : Nat} {lines : List (List Char)} (hl : ∀ l ∈ lines, '\n' ∉ l)
    (hn : ∀ l ∈ lines, l.length < n) : fileLines n (unlines lines) = lines.map (· ++ ['\n']) :=
  fgetsAll_unlines hl hn (Nat.le_refl _)

end Arche.Lib
