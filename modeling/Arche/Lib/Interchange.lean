import Mathlib.Data.Option.Basic

/-!
# Interchange of two loops over rows and writes

A `Write` fills one column row by row, each time from the whole store, and may
fail. `sequential` runs one sweep over all rows for each write, `fused` makes one
pass over the rows and does every write in each.

`Write.Insensitive` says that the value for a row does not depend on the cells
that the other order has not written yet or has written already. Where this holds
along the sweeps (`InOrder`), a completed `sequential` and `fused` end in the same
store: `fused_of_inOrder`.
-/

namespace Arche.Lib.Interchange

variable {κ ν : Type}

/-- A cell is a column and a row. -/
abbrev Store (κ ν : Type) := κ → Nat → ν

/-- The value for row `i` of the column `target`, or failure. -/
structure Write (κ ν : Type) where
  target : κ
  value : Store κ ν → Nat → Option ν

/-- Rows below `i` of `a`, the others of `b`. -/
def mix (i : Nat) (a b : Store κ ν) : Store κ ν := fun c k => if k < i then a c k else b c k

theorem mix_of_lt {i k : Nat} (h : k < i) (a b : Store κ ν) (c : κ) : mix i a b c k = a c k :=
  if_pos h

theorem mix_of_le {i k : Nat} (h : i ≤ k) (a b : Store κ ν) (c : κ) : mix i a b c k = b c k :=
  if_neg (Nat.not_lt.mpr h)

theorem mix_zero (a b : Store κ ν) : mix 0 a b = b := by
  funext c k
  exact mix_of_le (Nat.zero_le k) a b c

/-- A store between two others: rows below `i` of `last`, row `i` of `now`, the rest of `first`. -/
def stair (i : Nat) (last now first : Store κ ν) : Store κ ν :=
  mix i last (fun c k => if k = i then now c k else first c k)

theorem stair_lt {i k : Nat} (h : k < i) (last now first : Store κ ν) (c : κ) :
    stair i last now first c k = last c k := mix_of_lt h _ _ c

theorem stair_eq (i : Nat) (last now first : Store κ ν) (c : κ) :
    stair i last now first c i = now c i := by
  rw [stair, mix_of_le (Nat.le_refl i)]
  exact if_pos rfl

theorem stair_gt {i k : Nat} (h : i < k) (last now first : Store κ ν) (c : κ) :
    stair i last now first c k = first c k := by
  rw [stair, mix_of_le (Nat.le_of_lt h)]
  exact if_neg (Nat.ne_of_gt h)

theorem stair_first (i : Nat) (last first : Store κ ν) :
    stair i last first first = mix i last first := by
  funext c k
  rcases Nat.lt_trichotomy k i with h | rfl | h
  · rw [stair_lt h, mix_of_lt h]
  · rw [stair_eq, mix_of_le (Nat.le_refl k)]
  · rw [stair_gt h, mix_of_le (Nat.le_of_lt h)]

theorem stair_last (i : Nat) (last first : Store κ ν) :
    stair i last last first = mix (i + 1) last first := by
  funext c k
  rcases Nat.lt_trichotomy k i with h | rfl | h
  · rw [stair_lt h, mix_of_lt (Nat.lt_succ_of_lt h)]
  · rw [stair_eq, mix_of_lt (Nat.lt_succ_self k)]
  · rw [stair_gt h, mix_of_le h]

section Loops

variable [DecidableEq κ]

def set (σ : Store κ ν) (c : κ) (i : Nat) (v : ν) : Store κ ν :=
  fun d k => if d = c ∧ k = i then v else σ d k

theorem set_same (σ : Store κ ν) (c : κ) (i : Nat) (v : ν) : set σ c i v c i = v :=
  if_pos ⟨rfl, rfl⟩

theorem set_other {σ : Store κ ν} {c d : κ} {i k : Nat} {v : ν} (h : d ≠ c ∨ k ≠ i) :
    set σ c i v d k = σ d k := by
  refine if_neg ?_
  rintro ⟨hd, hk⟩
  rcases h with h | h
  · exact h hd
  · exact h hk

namespace Write

/-- One write of one row. -/
def step (w : Write κ ν) (i : Nat) (σ : Store κ ν) : Option (Store κ ν) :=
  (w.value σ i).map (set σ w.target i)

theorem step_some {w : Write κ ν} {i : Nat} {σ : Store κ ν} {v : ν} (h : w.value σ i = some v) :
    w.step i σ = some (set σ w.target i v) := by
  rw [step, h]
  rfl

/-- The rows below `n`, one after the other. -/
def sweep (n : Nat) (w : Write κ ν) (σ : Store κ ν) : Option (Store κ ν) :=
  (List.range n).foldlM (fun σ i => w.step i σ) σ

theorem sweep_succ (n : Nat) (w : Write κ ν) (σ : Store κ ν) :
    w.sweep (n + 1) σ = (w.sweep n σ).bind (w.step n) := by
  rw [sweep, List.range_succ, List.foldlM_append]
  congr 1
  funext τ
  exact bind_pure _

/-- What a completed sweep is: rows below `n` of the target get the value computed from the rows
already written and the old ones, the rest stays. -/
structure Swept (n : Nat) (w : Write κ ν) (σ σ' : Store κ ν) : Prop where
  frame : ∀ c k, c ≠ w.target ∨ n ≤ k → σ' c k = σ c k
  value : ∀ i < n, w.value (mix i σ' σ) i = some (σ' w.target i)

theorem swept_of_sweep {n : Nat} {w : Write κ ν} {σ σ' : Store κ ν}
    (h : w.sweep n σ = some σ') : Swept n w σ σ' := by
  induction n generalizing σ' with
  | zero =>
    cases h
    exact ⟨fun _ _ _ => rfl, fun i hi => absurd hi (Nat.not_lt_zero i)⟩
  | succ n ih =>
    rw [sweep_succ] at h
    obtain ⟨τ, hτ, hstep⟩ := Option.bind_eq_some_iff.mp h
    obtain ⟨v, hv, rfl⟩ := Option.map_eq_some_iff.mp hstep
    obtain ⟨hframe, hvalue⟩ := ih hτ
    -- the first `n` rows are as they were before the last step
    have hmix : ∀ i ≤ n, mix i (set τ w.target n v) σ = mix i τ σ := by
      intro i hi
      funext c k
      by_cases hk : k < i
      · rw [mix_of_lt hk, mix_of_lt hk, set_other (.inr (by omega))]
      · rw [mix_of_le (Nat.not_lt.mp hk), mix_of_le (Nat.not_lt.mp hk)]
    refine ⟨?_, ?_⟩
    · intro c k h
      rcases h with h | h
      · rw [set_other (.inl h)]
        exact hframe c k (.inl h)
      · rw [set_other (.inr (by omega))]
        exact hframe c k (.inr (by omega))
    · intro i hi
      rw [hmix i (by omega)]
      rcases Nat.lt_succ_iff_lt_or_eq.mp hi with hi | rfl
      · rw [set_other (.inr (by omega))]
        exact hvalue i hi
      · rw [set_same]
        have hself : mix i τ σ = τ := by
          funext c k
          by_cases hk : k < i
          · exact mix_of_lt hk τ σ c
          · rw [mix_of_le (Nat.not_lt.mp hk)]
            exact (hframe c k (.inr (Nat.not_lt.mp hk))).symm
        rw [hself]
        exact hv

/-- The value for row `i` in `σ` does not depend on the columns of `after` below row `i`, nor on
those of `before` between `i` and `n`. -/
def Insensitive (n : Nat) (w : Write κ ν) (i : Nat) (σ : Store κ ν) (before after : List κ) :
    Prop :=
  ∀ τ : Store κ ν,
    (∀ c k, (k < i → c ∉ after) → (i < k → k < n → c ∉ before) → τ c k = σ c k) →
    w.value τ i = w.value σ i

end Write

/-- One sweep for each write. -/
def sequential (n : Nat) (ws : List (Write κ ν)) (σ : Store κ ν) : Option (Store κ ν) :=
  ws.foldlM (fun σ w => w.sweep n σ) σ

/-- All writes of one row. -/
def row (ws : List (Write κ ν)) (i : Nat) (σ : Store κ ν) : Option (Store κ ν) :=
  ws.foldlM (fun σ w => w.step i σ) σ

/-- One pass over the rows. -/
def fused (n : Nat) (ws : List (Write κ ν)) (σ : Store κ ν) : Option (Store κ ν) :=
  (List.range n).foldlM (fun σ i => row ws i σ) σ

/-- Along the sweeps of `ws`, which come after writes to `before`, every value is insensitive to
the interchange. -/
def InOrder (n : Nat) (before : List κ) (σ : Store κ ν) : List (Write κ ν) → Prop
  | [] => True
  | w :: ws => ∀ σ', w.sweep n σ = some σ' →
      (∀ i < n, w.Insensitive n i (mix i σ' σ) before (ws.map Write.target)) ∧
        InOrder n (before ++ [w.target]) σ' ws

/-- Columns that no write of `ws` fills, and the rows from `n` on, stay. -/
theorem sequential_frame {n : Nat} {ws : List (Write κ ν)} {σ σ' : Store κ ν}
    (h : sequential n ws σ = some σ') {c : κ} {k : Nat}
    (hc : c ∉ ws.map Write.target ∨ n ≤ k) : σ' c k = σ c k := by
  induction ws generalizing σ with
  | nil =>
    cases h
    rfl
  | cons w ws ih =>
    obtain ⟨τ, hτ, h⟩ := Option.bind_eq_some_iff.mp h
    rw [List.map_cons, List.mem_cons, not_or] at hc
    have hw := (Write.swept_of_sweep hτ).frame c k
    rcases hc with hc | hk
    · exact (ih h (.inl hc.2)).trans (hw (.inl hc.1))
    · exact (ih h (.inr hk)).trans (hw (.inr hk))

/-- One row of the fused pass: `σ` is the store after the writes before `ws`, `first` the one at the
beginning and `last` the one at the end of all sweeps. -/
theorem row_stair {n : Nat} {ws : List (Write κ ν)} {before : List κ} {first σ last : Store κ ν}
    {i : Nat} (hi : i < n) (hseq : sequential n ws σ = some last) (hord : InOrder n before σ ws)
    (hfirst : ∀ c k, c ∉ before ∨ n ≤ k → σ c k = first c k) :
    row ws i (stair i last σ first) = some (stair i last last first) := by
  induction ws generalizing before σ with
  | nil =>
    cases hseq
    rfl
  | cons w ws ih =>
    obtain ⟨σ', hσ', hseq⟩ := Option.bind_eq_some_iff.mp hseq
    obtain ⟨hins, hord⟩ := hord σ' hσ'
    obtain ⟨hframe, hvalue⟩ := Write.swept_of_sweep hσ'
    -- the write sees what it saw in its own sweep
    have hval : w.value (stair i last σ first) i = some (σ' w.target i) := by
      rw [← hvalue i hi]
      refine hins i hi _ ?_
      intro c k hafter hbefore
      rcases Nat.lt_trichotomy k i with h | rfl | h
      · rw [stair_lt h, mix_of_lt h]
        exact sequential_frame hseq (.inl (hafter h))
      · rw [stair_eq, mix_of_le (Nat.le_refl k)]
      · rw [stair_gt h, mix_of_le (Nat.le_of_lt h)]
        refine (hfirst c k ?_).symm
        rcases Nat.lt_or_ge k n with hk | hk
        · exact .inl (hbefore h hk)
        · exact .inr hk
    have hnext : set (stair i last σ first) w.target i (σ' w.target i) = stair i last σ' first := by
      funext c k
      rcases Nat.lt_trichotomy k i with h | rfl | h
      · rw [set_other (.inr (Nat.ne_of_lt h)), stair_lt h, stair_lt h]
      · by_cases hc : c = w.target
        · rw [hc, set_same, stair_eq]
        · rw [set_other (.inl hc), stair_eq, stair_eq]
          exact (hframe c k (.inl hc)).symm
      · rw [set_other (.inr (Nat.ne_of_gt h)), stair_gt h, stair_gt h]
    show (w.step i (stair i last σ first)).bind (row ws i) = _
    rw [Write.step_some hval, Option.bind_some, hnext]
    refine ih hseq hord ?_
    intro c k hc
    rw [List.mem_append, List.mem_singleton, not_or] at hc
    rcases hc with ⟨hc, hcw⟩ | hk
    · exact (hframe c k (.inl hcw)).trans (hfirst c k (.inl hc))
    · exact (hframe c k (.inr hk)).trans (hfirst c k (.inr hk))

/-- The fused pass ends where the sweeps end. -/
theorem fused_of_inOrder {n : Nat} {ws : List (Write κ ν)} {σ σ' : Store κ ν}
    (hseq : sequential n ws σ = some σ') (hord : InOrder n [] σ ws) :
    fused n ws σ = some σ' := by
  have hrows : ∀ i ≤ n, (List.range i).foldlM (fun τ j => row ws j τ) σ = some (mix i σ' σ) := by
    intro i
    induction i with
    | zero =>
      intro _
      rw [mix_zero]
      rfl
    | succ i ih =>
      intro hi
      rw [List.range_succ, List.foldlM_append, ih (Nat.le_of_succ_le hi)]
      show (row ws i (mix i σ' σ)).bind some = _
      rw [← stair_first, row_stair hi hseq hord fun _ _ _ => rfl, stair_last]
      rfl
  rw [fused, hrows n (Nat.le_refl n)]
  refine congrArg some ?_
  funext c k
  rcases Nat.lt_or_ge k n with hk | hk
  · exact mix_of_lt hk σ' σ c
  · rw [mix_of_le hk]
    exact (sequential_frame hseq (.inr hk)).symm

end Loops

end Arche.Lib.Interchange
