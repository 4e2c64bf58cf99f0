import Mathlib.Logic.Relation

/-!
# Labelled runs

A transition system is a relation `step : σ → ι → σ → Prop`: in state `s` the
call `l` may lead to `t`. A `Run` is a finite sequence of calls. `Guarded`
keeps the steps that meet a condition on the state before them, so that "every
step of the run meets the condition" is the same as "a run of the guarded
system".
-/

namespace Arche.Lib

variable {σ ι : Type}

/-- `Run step s ls t`: the calls `ls`, made one after the other, lead from `s` to `t`. -/
inductive Run (step : σ → ι → σ → Prop) (s : σ) : List ι → σ → Prop
  | nil : Run step s [] s
  | snoc {ls : List ι} {l : ι} {t u : σ} :
      Run step s ls t → step t l u → Run step s (ls ++ [l]) u

/-- The steps of `step` whose call meets `C` in the state before it. -/
def Guarded (step : σ → ι → σ → Prop) (C : σ → ι → Prop) (s : σ) (l : ι) (t : σ) : Prop :=
  step s l t ∧ C s l

/-- A run of the guarded system is a run. -/
theorem Run.of_guarded {step : σ → ι → σ → Prop} {C : σ → ι → Prop} {s t : σ} {ls : List ι}
    (h : Run (Guarded step C) s ls t) : Run step s ls t := by
  induction h with
  | nil => exact .nil
  | snoc _ hs ih => exact ih.snoc hs.1

/-- What holds at the start and is kept by every step holds after every run. -/
theorem Run.inv {step : σ → ι → σ → Prop} {s t : σ} {ls : List ι} (I : σ → Prop) (h0 : I s)
    (hstep : ∀ a l b, I a → step a l b → I b) (h : Run step s ls t) : I t := by
  induction h with
  | nil => exact h0
  | snoc _ hs ih => exact hstep _ _ _ ih hs

/-- What holds after `n` calls and is kept by each, as long as they are fewer than `bound`. -/
theorem Run.counted {step : σ → ι → σ → Prop} {s t : σ} {ls : List ι} (I : Nat → σ → Prop)
    {n bound : Nat} (h0 : I n s)
    (hstep : ∀ n a l b, n + 1 < bound → I n a → step a l b → I (n + 1) b)
    (h : Run step s ls t) (hlen : n + ls.length < bound) : I (n + ls.length) t := by
  induction h with
  | nil => exact h0
  | @snoc ls l _ _ _ hs ih =>
    have hls : n + (ls ++ [l]).length = n + ls.length + 1 := by
      rw [List.length_append, Nat.add_assoc]
      rfl
    rw [hls] at hlen ⊢
    exact hstep _ _ _ _ hlen (ih (Nat.lt_of_succ_lt hlen)) hs

/-- Runs that are bounded and only get stuck in `F` get there. -/
theorem Run.exists_final {step : σ → ι → σ → Prop} {s : σ} (F : σ → Prop) {bound : Nat}
    (hbound : ∀ ls t, Run step s ls t → ls.length ≤ bound)
    (hstep : ∀ ls t, Run step s ls t → F t ∨ ∃ l u, step t l u) :
    ∃ ls t, Run step s ls t ∧ F t := by
  refine Classical.byContradiction fun hnone => ?_
  have hlong : ∀ m, ∃ ls t, Run step s ls t ∧ ls.length = m := by
    intro m
    induction m with
    | zero => exact ⟨[], s, .nil, rfl⟩
    | succ m ih =>
      obtain ⟨ls, t, hrun, hlen⟩ := ih
      obtain ⟨l, u, hlu⟩ := (hstep ls t hrun).resolve_left fun hF => hnone ⟨ls, t, hrun, hF⟩
      exact ⟨ls ++ [l], u, hrun.snoc hlu, by rw [List.length_append, hlen]; rfl⟩
  obtain ⟨ls, t, hrun, hlen⟩ := hlong (bound + 1)
  have hle := hbound ls t hrun
  omega

end Arche.Lib
