import Mathlib.Data.List.GetD
import Mathlib.Data.List.Infix

/-!
# Nested scopes in a text

Every line of a text has a scope, the list of the scopes around it from the inside out, and an
inner scope is an extension of an outer one. `Nested` says that a scope is not left and entered
again. `Open` says that the scope of a line has not been closed up to another line.

`Within base lo hi` are the extensions of `base` by scopes with numbers from `lo` on and below `hi`.
Pieces that number their scopes apart are nested one after the other (`Nested.append`).
-/

namespace Arche.Lib

variable {α : Type}

/-- The scope of a line. Past the end no scope is left open. -/
def scopeAt (ss : List (List α)) (k : Nat) : List α := ss.getD k []

/-- Between two lines of a scope there are only lines of it. -/
def Nested (ss : List (List α)) : Prop :=
  ∀ i k j, i ≤ k → k ≤ j → scopeAt ss i <:+ scopeAt ss j → scopeAt ss i <:+ scopeAt ss k

/-- Line `d` comes before line `p`, and its scope has not been closed in between. -/
def Open (ss : List (List α)) (d p : Nat) : Prop :=
  d < p ∧ ∀ k < p + 1, d ≤ k → scopeAt ss d <:+ scopeAt ss k

instance [DecidableEq α] (ss : List (List α)) (d p : Nat) : Decidable (Open ss d p) :=
  inferInstanceAs (Decidable (_ ∧ _))

section

variable {ss : List (List α)} {d p q : Nat}

theorem Open.of_le (h : Open ss d q) (hd : d < p) (hpq : p ≤ q) : Open ss d p :=
  ⟨hd, fun k hk hdk => h.2 k (by omega) hdk⟩

/-- A scope that is open at `p` is open wherever the scope of `p` is. -/
theorem Nested.open_of_suffix (hss : Nested ss) (h : Open ss d p) (hpq : p ≤ q)
    (hsuffix : scopeAt ss p <:+ scopeAt ss q) : Open ss d q := by
  refine ⟨by have := h.1; omega, fun k hk hdk => ?_⟩
  by_cases hkp : k ≤ p
  · exact h.2 k (by omega) hdk
  · have hhere : scopeAt ss d <:+ scopeAt ss p := h.2 p (by omega) (Nat.le_of_lt h.1)
    exact hhere.trans (hss p k q (by omega) (by omega) hsuffix)

theorem scopeAt_append_left {l₁ l₂ : List (List α)} {k : Nat} (hk : k < l₁.length) :
    scopeAt (l₁ ++ l₂) k = scopeAt l₁ k := by
  rw [scopeAt, scopeAt, List.getD_append _ _ _ _ hk]

theorem scopeAt_append_right {l₁ l₂ : List (List α)} {k : Nat} (hk : l₁.length ≤ k) :
    scopeAt (l₁ ++ l₂) k = scopeAt l₂ (k - l₁.length) := by
  rw [scopeAt, scopeAt, List.getD_append_right _ _ _ _ hk]

theorem scopeAt_mem {k : Nat} (hk : k < ss.length) : scopeAt ss k ∈ ss := by
  rw [scopeAt, List.getD_eq_getElem _ _ hk]
  exact List.getElem_mem hk

theorem scopeAt_of_le {k : Nat} (hk : ss.length ≤ k) : scopeAt ss k = [] :=
  List.getD_eq_default _ _ hk

theorem nested_singleton (a : List α) : Nested [a] := by
  intro i k j hik hkj hij
  by_cases hj : j < 1
  · obtain rfl : k = 0 := by omega
    obtain rfl : i = 0 := by omega
    exact List.suffix_rfl
  · have hend : scopeAt [a] j = [] := scopeAt_of_le (Nat.not_lt.mp hj)
    rw [hend] at hij
    rw [List.suffix_nil.mp hij]
    exact List.nil_suffix

end

/-- The extensions of `base` by scopes numbered from `lo` on and below `hi`. -/
def Within (num : α → Nat) (base : List α) (lo hi : Nat) (s : List α) : Prop :=
  ∃ inner, s = inner ++ base ∧ ∀ a ∈ inner, lo ≤ num a ∧ num a < hi

section

variable {num : α → Nat} {base s t : List α} {lo mid hi : Nat}

theorem Within.suffix (h : Within num base lo hi s) : base <:+ s := by
  obtain ⟨inner, rfl, -⟩ := h
  exact List.suffix_append inner base

theorem within_base : Within num base lo hi base := ⟨[], rfl, by simp⟩

theorem Within.mono {lo' hi' : Nat} (h : Within num base lo hi s) (hlo : lo' ≤ lo)
    (hhi : hi ≤ hi') : Within num base lo' hi' s := by
  obtain ⟨inner, rfl, hnum⟩ := h
  exact ⟨inner, rfl, fun a ha => ⟨hlo.trans (hnum a ha).1, (hnum a ha).2.trans_le hhi⟩⟩

theorem Within.of_cons {a : α} (h : Within num (a :: base) lo hi s) (ha : num a < lo)
    (hlo : lo ≤ hi) : Within num base (num a) hi s := by
  obtain ⟨inner, rfl, hnum⟩ := h
  refine ⟨inner ++ [a], by simp, fun b hb => ?_⟩
  rcases List.mem_append.mp hb with hb | hb
  · have := hnum b hb
    omega
  · rw [List.mem_singleton.mp hb]
    omega

/-- Scopes numbered apart have only their base in common. -/
theorem Within.eq_base (hs : Within num base lo mid s) (ht : Within num base mid hi t)
    (h : s <:+ t) : s = base := by
  obtain ⟨x, rfl, hx⟩ := hs
  obtain ⟨y, rfl, hy⟩ := ht
  have hxy : x <:+ y := by
    obtain ⟨pre, hpre⟩ := h
    rw [← List.append_assoc] at hpre
    exact ⟨pre, List.append_cancel_right hpre⟩
  cases x with
  | nil => rfl
  | cons a x =>
    have hlow := hx a List.mem_cons_self
    have hhigh := hy a (hxy.subset List.mem_cons_self)
    omega

theorem Nested.append {l₁ l₂ : List (List α)} (h₁ : Nested l₁) (h₂ : Nested l₂)
    (hw₁ : ∀ s ∈ l₁, Within num base lo mid s) (hw₂ : ∀ s ∈ l₂, Within num base mid hi s) :
    Nested (l₁ ++ l₂) := by
  intro i k j hik hkj hij
  by_cases hj : j < l₁.length
  · rw [scopeAt_append_left (by omega)] at hij ⊢
    rw [scopeAt_append_left hj] at hij
    rw [scopeAt_append_left (by omega)]
    exact h₁ i k j hik hkj hij
  · by_cases hi : i < l₁.length
    · rw [scopeAt_append_left hi] at hij ⊢
      rw [scopeAt_append_right (by omega)] at hij
      by_cases hend : j - l₁.length < l₂.length
      · -- from one piece into the other: the scope is their base
        rw [(hw₁ _ (scopeAt_mem hi)).eq_base (hw₂ _ (scopeAt_mem hend)) hij]
        by_cases hk : k < l₁.length
        · rw [scopeAt_append_left hk]
          exact (hw₁ _ (scopeAt_mem hk)).suffix
        · rw [scopeAt_append_right (by omega)]
          exact (hw₂ _ (scopeAt_mem (by omega))).suffix
      · have hout : scopeAt l₂ (j - l₁.length) = [] := scopeAt_of_le (by omega)
        rw [hout] at hij
        rw [List.suffix_nil.mp hij]
        exact List.nil_suffix
    · rw [scopeAt_append_right (by omega)] at hij ⊢
      rw [scopeAt_append_right (by omega)] at hij
      rw [scopeAt_append_right (by omega)]
      exact h₂ _ _ _ (by omega) (by omega) hij

end

end Arche.Lib
