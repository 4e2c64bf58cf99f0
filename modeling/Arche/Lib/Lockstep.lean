import Mathlib.Data.List.Basic

/-!
# Deterministic machines

A machine is a function `step : σ → Option (Option ε × σ)`: it has ended, or it goes on
with at most one event. `Shows` are the traces a machine is seen to have made after some
number of steps, `Ends` those it has made when it ends. A machine that never ends is
known by what it shows.

`Lockstep` is a forward simulation: a step of the first machine is matched by at least
one step of the second, or by none if a measure goes down. Since the second machine is
deterministic, both then show the same and end the same (`Lockstep.shows_iff`,
`Lockstep.ends_iff`).
-/

namespace Arche.Lib.Machine

variable {σ τ ε : Type}

/-- `Steps step n s us t`: `n` steps lead from `s` to `t` with the events `us`. -/
inductive Steps (step : σ → Option (Option ε × σ)) : Nat → σ → List ε → σ → Prop
  | refl (s : σ) : Steps step 0 s [] s
  | cons {n : Nat} {s s' t : σ} {e : Option ε} {us : List ε} (h : step s = some (e, s'))
      (hs : Steps step n s' us t) : Steps step (n + 1) s (e.toList ++ us) t

def Shows (step : σ → Option (Option ε × σ)) (s : σ) (us : List ε) : Prop :=
  ∃ n t, Steps step n s us t

def Ends (step : σ → Option (Option ε × σ)) (s : σ) (us : List ε) : Prop :=
  ∃ n t, Steps step n s us t ∧ step t = none

namespace Steps

variable {step : σ → Option (Option ε × σ)} {s t u : σ} {us vs : List ε} {m n : Nat}

theorem one {e : Option ε} (h : step s = some (e, t)) : Steps step 1 s e.toList t := by
  have hsteps := Steps.cons h (.refl t)
  rwa [List.append_nil] at hsteps

theorem trans (h : Steps step m s us t) (h' : Steps step n t vs u) :
    Steps step (m + n) s (us ++ vs) u := by
  induction h with
  | refl s => simpa using h'
  | @cons k s s' t e us hstep hs ih =>
    have hsteps := Steps.cons hstep (ih h')
    rwa [Nat.add_right_comm, List.append_assoc]

/-- A silent step in front. -/
theorem silent_cons (h : step s = some (none, t)) (h' : Steps step n t us u) :
    Steps step (n + 1) s us u := Steps.cons h h'

/-- The first steps of a run. -/
theorem split {k : Nat} (h : Steps step n s us u) (hk : k ≤ n) :
    ∃ t vs ws, Steps step k s vs t ∧ Steps step (n - k) t ws u ∧ us = vs ++ ws := by
  induction h generalizing k with
  | refl s =>
    obtain rfl := Nat.le_zero.mp hk
    exact ⟨s, [], [], .refl s, .refl s, rfl⟩
  | @cons m s s' t e us hstep hs ih =>
    cases k with
    | zero => exact ⟨s, [], _, .refl s, .cons hstep hs, rfl⟩
    | succ k =>
      obtain ⟨v, vs, ws, hv, hw, rfl⟩ := ih (Nat.le_of_succ_le_succ hk)
      rw [Nat.succ_sub_succ]
      exact ⟨v, e.toList ++ vs, ws, .cons hstep hv, hw, (List.append_assoc ..).symm⟩

theorem deterministic (h : Steps step n s us t) (h' : Steps step n s vs u) :
    us = vs ∧ t = u := by
  induction h generalizing vs u with
  | refl s =>
    cases h'
    exact ⟨rfl, rfl⟩
  | cons hstep hs ih =>
    cases h' with
    | cons hstep' hs' =>
      obtain ⟨rfl, rfl⟩ := by simpa using hstep.symm.trans hstep'
      obtain ⟨rfl, rfl⟩ := ih hs'
      exact ⟨rfl, rfl⟩

/-- No step leads on from an ended machine. -/
theorem of_ended (h : Steps step n s us t) (hend : step s = none) : us = [] ∧ t = s := by
  cases h with
  | refl => exact ⟨rfl, rfl⟩
  | cons hstep _ => cases hstep.symm.trans hend

end Steps

/-- A silent step hides nothing. -/
theorem shows_silent_iff {step : σ → Option (Option ε × σ)} {s t : σ} {us : List ε}
    (h : step s = some (none, t)) : Shows step s us ↔ Shows step t us := by
  constructor
  · rintro ⟨n, u, hs⟩
    cases hs with
    | refl => exact ⟨0, t, .refl t⟩
    | cons hstep hs =>
      obtain ⟨rfl, rfl⟩ := by simpa using hstep.symm.trans h
      exact ⟨_, u, hs⟩
  · rintro ⟨n, u, hs⟩
    exact ⟨n + 1, u, .silent_cons h hs⟩

theorem ends_silent_iff {step : σ → Option (Option ε × σ)} {s t : σ} {us : List ε}
    (h : step s = some (none, t)) : Ends step s us ↔ Ends step t us := by
  constructor
  · rintro ⟨n, u, hs, hend⟩
    cases hs with
    | refl => cases hend.symm.trans h
    | cons hstep hs =>
      obtain ⟨rfl, rfl⟩ := by simpa using hstep.symm.trans h
      exact ⟨_, u, hs, hend⟩
  · rintro ⟨n, u, hs, hend⟩
    exact ⟨n + 1, u, .silent_cons h hs, hend⟩

/-- The prefixes of a run are shown. -/
theorem Steps.shows_of_isPrefix {step : σ → Option (Option ε × σ)} {n : Nat} {s t : σ} {us vs : List ε}
    (h : Steps step n s us t) (hvs : vs <+: us) : Shows step s vs := by
  induction h generalizing vs with
  | refl s =>
    obtain rfl := List.prefix_nil.mp hvs
    exact ⟨0, s, .refl s⟩
  | @cons n s s' t e us hstep hs ih =>
    cases e with
    | none =>
      obtain ⟨m, u, hu⟩ := ih hvs
      exact ⟨m + 1, u, .silent_cons hstep hu⟩
    | some x =>
      cases vs with
      | nil => exact ⟨0, s, .refl s⟩
      | cons y vs =>
        obtain ⟨rfl, htail⟩ := List.cons_prefix_cons.mp hvs
        obtain ⟨m, u, hu⟩ := ih htail
        exact ⟨m + 1, u, .cons hstep hu⟩

/-- A machine that ends shows the prefixes of its trace. -/
theorem Ends.shows_iff {step : σ → Option (Option ε × σ)} {s : σ} {us vs : List ε}
    (h : Ends step s us) : Shows step s vs ↔ vs <+: us := by
  obtain ⟨n, t, hs, hend⟩ := h
  constructor
  · rintro ⟨k, u, hk⟩
    rcases Nat.le_total k n with hle | hle
    · obtain ⟨v, xs, ys, hv, -, rfl⟩ := hs.split hle
      obtain ⟨rfl, -⟩ := hk.deterministic hv
      exact List.prefix_append _ _
    · obtain ⟨v, xs, ys, hv, hrest, rfl⟩ := hk.split hle
      obtain ⟨rfl, rfl⟩ := hv.deterministic hs
      obtain ⟨rfl, -⟩ := hrest.of_ended hend
      exact (List.append_nil _).symm ▸ List.prefix_rfl
  · exact hs.shows_of_isPrefix

theorem Ends.unique {step : σ → Option (Option ε × σ)} {s : σ} {us vs : List ε}
    (h : Ends step s us) (h' : Ends step s vs) : us = vs := by
  have hle : us <+: vs := h'.shows_iff.mp (h.shows_iff.mpr List.prefix_rfl)
  have hge : vs <+: us := h.shows_iff.mp (h'.shows_iff.mpr List.prefix_rfl)
  exact hle.eq_of_length_le hge.length_le

/-- The first `n` steps, or all there are. -/
def runFor (step : σ → Option (Option ε × σ)) : Nat → σ → List ε × σ
  | 0, s => ([], s)
  | n + 1, s =>
    match step s with
    | none => ([], s)
    | some (e, s') => (e.toList ++ (runFor step n s').1, (runFor step n s').2)

theorem shows_runFor (step : σ → Option (Option ε × σ)) (n : Nat) (s : σ) :
    ∃ m, Steps step m s (runFor step n s).1 (runFor step n s).2 := by
  induction n generalizing s with
  | zero => exact ⟨0, .refl s⟩
  | succ n ih =>
    unfold runFor
    split
    · exact ⟨0, .refl s⟩
    · next e s' hstep =>
      obtain ⟨m, hm⟩ := ih s'
      exact ⟨m + 1, .cons hstep hm⟩

/-- A machine that ends does so in one state. -/
theorem Steps.eq_runFor {step : σ → Option (Option ε × σ)} {m n : Nat} {s t u : σ} {us vs : List ε}
    (h : Steps step m s us t) (ht : step t = none) (hrun : runFor step n s = (vs, u))
    (hu : step u = none) : t = u := by
  obtain ⟨k, hk⟩ := shows_runFor step n s
  rw [hrun] at hk
  rcases Nat.le_total m k with hmk | hmk
  · obtain ⟨t', ws, zs, hw, hz, -⟩ := hk.split hmk
    obtain ⟨-, rfl⟩ := h.deterministic hw
    exact (hz.of_ended ht).2.symm
  · obtain ⟨t', ws, zs, hw, hz, -⟩ := h.split hmk
    obtain ⟨-, rfl⟩ := hk.deterministic hw
    exact (hz.of_ended hu).2

theorem ends_runFor {step : σ → Option (Option ε × σ)} (n : Nat) {s t : σ} {us : List ε}
    (h : runFor step n s = (us, t)) (hend : step t = none) : Ends step s us := by
  obtain ⟨m, hm⟩ := shows_runFor step n s
  rw [h] at hm
  exact ⟨m, t, hm, hend⟩

/-- Every step of the first machine is matched, and no stretch of unmatched steps is infinite. -/
structure Lockstep (step₁ : σ → Option (Option ε × σ)) (step₂ : τ → Option (Option ε × τ))
    (R : σ → τ → Prop) (μ : σ → Nat) : Prop where
  ended : ∀ s t, R s t → step₁ s = none → ∃ n t', Steps step₂ n t [] t' ∧ step₂ t' = none ∧ R s t'
  moves : ∀ s t e s', R s t → step₁ s = some (e, s') →
    (∃ n t', Steps step₂ (n + 1) t e.toList t' ∧ R s' t') ∨ (e = none ∧ R s' t ∧ μ s' < μ s)

namespace Lockstep

variable {step₁ : σ → Option (Option ε × σ)} {step₂ : τ → Option (Option ε × τ)}
  {R : σ → τ → Prop} {μ : σ → Nat} {s s' : σ} {t : τ} {us : List ε}

theorem follows (h : Lockstep step₁ step₂ R μ) {n : Nat} (hs : Steps step₁ n s us s') (hR : R s t) :
    ∃ m t', Steps step₂ m t us t' ∧ R s' t' := by
  induction hs generalizing t with
  | refl s => exact ⟨0, t, .refl t, hR⟩
  | @cons n s s₁ s' e us hstep hs ih =>
    rcases h.moves s t e s₁ hR hstep with ⟨k, t', hk, hR'⟩ | ⟨rfl, hR', -⟩
    · obtain ⟨m, t'', hm, hR''⟩ := ih hR'
      exact ⟨_, t'', hk.trans hm, hR''⟩
    · exact ih hR'

/-- What the second machine has done is what the first shows on the way to its next state. -/
theorem leads (h : Lockstep step₁ step₂ R μ) {m : Nat} {t' : τ} (ht : Steps step₂ m t us t')
    (hR : R s t) : Shows step₁ s us ∧ (step₂ t' = none → Ends step₁ s us) := by
  -- unmatched steps lower the measure, matched ones the number of steps left
  induction m using Nat.strongRecOn generalizing s t us with
  | _ m ihm =>
    induction hμ : μ s using Nat.strongRecOn generalizing s with
    | _ k ihk =>
      cases hstep : step₁ s with
      | none =>
        obtain ⟨n, u, hu, hend, -⟩ := h.ended s t hR hstep
        have hus : us = [] := by
          rcases Nat.le_total m n with hmn | hmn
          · obtain ⟨t₁, vs, ws, hv, -, hnil⟩ := hu.split hmn
            rw [(ht.deterministic hv).1]
            exact (List.append_eq_nil_iff.mp hnil.symm).1
          · obtain ⟨t₁, vs, ws, hv, hw, rfl⟩ := ht.split hmn
            obtain ⟨rfl, rfl⟩ := hu.deterministic hv
            exact (hw.of_ended hend).1
        subst hus
        exact ⟨⟨0, s, .refl s⟩, fun _ => ⟨0, s, .refl s, hstep⟩⟩
      | some p =>
        obtain ⟨e, s₁⟩ := p
        rcases h.moves s t e s₁ hR hstep with ⟨n, t₁, hn, hR₁⟩ | ⟨rfl, hR₁, hlt⟩
        · rcases Nat.lt_or_ge m (n + 1) with hmn | hmn
          · -- the second machine is still within the steps that match this one
            obtain ⟨u, vs, ws, hv, hw, hvs⟩ := hn.split (k := m) (by omega)
            obtain ⟨rfl, rfl⟩ := ht.deterministic hv
            refine ⟨?_, fun hend => ?_⟩
            · cases us with
              | nil => exact ⟨0, s, .refl s⟩
              | cons v vs =>
                cases e with
                | none => simp at hvs
                | some e =>
                  obtain ⟨rfl, rfl, rfl⟩ : v = e ∧ vs = [] ∧ ws = [] := by
                    simpa [eq_comm] using hvs
                  exact ⟨1, s₁, Steps.one hstep⟩
            · have hpos : n + 1 - m = (n - m) + 1 := by omega
              rw [hpos] at hw
              cases hw with
              | cons hstep' _ => cases hstep'.symm.trans hend
          · obtain ⟨u, vs, ws, hv, hw, rfl⟩ := ht.split hmn
            obtain ⟨rfl, rfl⟩ := hn.deterministic hv
            obtain ⟨⟨i, r, hi⟩, hends⟩ := ihm (m - (n + 1)) (by omega) hw hR₁
            refine ⟨⟨i + 1, r, .cons hstep hi⟩, fun hend => ?_⟩
            obtain ⟨j, r', hj, hend'⟩ := hends hend
            exact ⟨j + 1, r', .cons hstep hj, hend'⟩
        · obtain ⟨⟨i, r, hi⟩, hends⟩ := ihk (μ s₁) (by omega) hR₁ rfl
          refine ⟨⟨i + 1, r, .silent_cons hstep hi⟩, fun hend => ?_⟩
          obtain ⟨j, r', hj, hend'⟩ := hends hend
          exact ⟨j + 1, r', .silent_cons hstep hj, hend'⟩

theorem shows_iff (h : Lockstep step₁ step₂ R μ) (hR : R s t) :
    Shows step₁ s us ↔ Shows step₂ t us := by
  constructor
  · rintro ⟨n, s', hs⟩
    obtain ⟨m, t', ht, -⟩ := h.follows hs hR
    exact ⟨m, t', ht⟩
  · rintro ⟨m, t', ht⟩
    exact (h.leads ht hR).1

theorem ends_iff (h : Lockstep step₁ step₂ R μ) (hR : R s t) :
    Ends step₁ s us ↔ Ends step₂ t us := by
  constructor
  · rintro ⟨n, s', hs, hend⟩
    obtain ⟨m, t', ht, hR'⟩ := h.follows hs hR
    obtain ⟨k, u, hu, hend', -⟩ := h.ended s' t' hR' hend
    have hsteps := ht.trans hu
    rw [List.append_nil] at hsteps
    exact ⟨_, u, hsteps, hend'⟩
  · rintro ⟨m, t', ht, hend⟩
    exact (h.leads ht hR).2 hend

end Lockstep

/-! ## One piece after the other -/

/-- Runs a piece, then the pieces of a queue, each started in the state the one before it left. -/
def chain {α : Type} (step : σ → Option (Option ε × σ)) (next : σ → α → σ) :
    σ × List α → Option (Option ε × σ × List α)
  | (s, q) =>
    match step s with
    | some (e, s') => some (e, s', q)
    | none =>
      match q with
      | [] => none
      | a :: q => some (none, next s a, q)

theorem Steps.chain {α : Type} {step : σ → Option (Option ε × σ)} (next : σ → α → σ) (q : List α)
    {n : Nat} {s t : σ} {us : List ε} (h : Steps step n s us t) :
    Steps (chain step next) n (s, q) us (t, q) := by
  induction h with
  | refl s => exact .refl _
  | cons hstep _ ih =>
    refine .cons ?_ ih
    simp only [Machine.chain, hstep]

theorem Lockstep.chain {α β : Type} {step₁ : σ → Option (Option ε × σ)}
    {step₂ : τ → Option (Option ε × τ)} {R : σ → τ → Prop} {μ : σ → Nat}
    (h : Lockstep step₁ step₂ R μ) {next₁ : σ → α → σ} {next₂ : τ → β → τ} {S : α → β → Prop}
    (hnext : ∀ s t a b, R s t → S a b → R (next₁ s a) (next₂ t b)) :
    Lockstep (chain step₁ next₁) (chain step₂ next₂)
      (fun s t => R s.1 t.1 ∧ List.Forall₂ S s.2 t.2) (fun s => μ s.1) where
  ended := by
    rintro ⟨s, q⟩ ⟨t, r⟩ ⟨hR, hq⟩ hstep
    simp only [Machine.chain] at hstep
    split at hstep
    · cases hstep
    · next hend =>
      obtain ⟨n, t', hn, hend', hR'⟩ := h.ended s t hR hend
      cases hq with
      | nil =>
        refine ⟨n, (t', []), hn.chain next₂ [], ?_, hR', .nil⟩
        simp only [Machine.chain, hend']
      | cons hab hq => cases hstep
  moves := by
    rintro ⟨s, q⟩ ⟨t, r⟩ e ⟨s', q'⟩ ⟨hR, hq⟩ hstep
    simp only [Machine.chain] at hstep
    split at hstep
    · next e' s₁ hmove =>
      obtain ⟨rfl, rfl, rfl⟩ := by simpa only [Option.some.injEq, Prod.mk.injEq] using hstep
      rcases h.moves s t _ _ hR hmove with ⟨n, t', hn, hR'⟩ | ⟨rfl, hR', hlt⟩
      · exact .inl ⟨n, (t', r), hn.chain next₂ r, hR', hq⟩
      · exact .inr ⟨rfl, ⟨hR', hq⟩, hlt⟩
    · next hend =>
      obtain ⟨n, t', hn, hend', hR'⟩ := h.ended s t hR hend
      cases hq with
      | nil => cases hstep
      | @cons a b as bs hab hq =>
        obtain ⟨rfl, rfl, rfl⟩ := by simpa only [Option.some.injEq, Prod.mk.injEq] using hstep
        refine .inl ⟨n, (next₂ t' b, bs), ?_, hnext s t' a b hR' hab, hq⟩
        refine (hn.chain next₂ (b :: bs)).trans (Steps.one (e := none) ?_)
        simp only [Machine.chain, hend']

end Arche.Lib.Machine
