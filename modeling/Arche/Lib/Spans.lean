import Mathlib.Algebra.BigOperators.Group.List.Basic
import Mathlib.Algebra.Order.BigOperators.Group.List
import Mathlib.Algebra.Order.Ring.Int
import Mathlib.Data.List.Pairwise

/-!
# Bump allocation

A bump allocator places blocks one behind the other. `spans base ns` are the blocks of the
lengths `ns` from `base` on: they never meet (`pairwise_spans`), and together they are one
interval (`contains_spans`), so that two allocators are judged by their intervals.
-/

namespace Arche.Lib

/-- The addresses from `base` on, `len` of them. -/
structure Region where
  base : Nat
  len : Nat
deriving DecidableEq, Repr

namespace Region

variable {r s : Region} {b m x : Nat} {ns ms : List Nat}

def Contains (r : Region) (x : Nat) : Prop := r.base ≤ x ∧ x < r.base + r.len

/-- No address is in both. -/
def Disjoint (r s : Region) : Prop := ∀ x, r.Contains x → ¬s.Contains x

/-- All addresses are below `m`. -/
def Below (m : Nat) (r : Region) : Prop := ∀ x, r.Contains x → x < m

theorem Disjoint.symm (h : r.Disjoint s) : s.Disjoint r := fun x hs hr => h x hr hs

/-- Nonempty regions are disjoint if one ends before the other starts. -/
theorem disjoint_iff : r.Disjoint s ↔
    (0 < r.len → 0 < s.len → r.base + r.len ≤ s.base ∨ s.base + s.len ≤ r.base) := by
  unfold Disjoint Contains
  constructor
  · intro h hr hs
    have hleft := h r.base ⟨Nat.le_refl _, by omega⟩
    have hright := h s.base
    omega
  · intro h x hr hs
    have := h (by omega) (by omega)
    omega

theorem below_iff : r.Below m ↔ (0 < r.len → r.base + r.len ≤ m) := by
  unfold Below Contains
  constructor
  · intro h hr
    have := h (r.base + r.len - 1) (by omega)
    omega
  · intro h x hx
    have := h (by omega)
    omega

/-- The blocks of the lengths `ns`, from `b` on. -/
def spans (b : Nat) : List Nat → List Region
  | [] => []
  | n :: ns => ⟨b, n⟩ :: spans (b + n) ns

theorem spans_append (b : Nat) (ns ms : List Nat) :
    spans b (ns ++ ms) = spans b ns ++ spans (b + ns.sum) ms := by
  induction ns generalizing b with
  | nil => rfl
  | cons n ns ih =>
    rw [List.cons_append, spans, ih, spans, List.cons_append, List.sum_cons, Nat.add_assoc]

/-- Together the blocks are an interval. -/
theorem contains_spans : (∃ r ∈ spans b ns, r.Contains x) ↔ b ≤ x ∧ x < b + ns.sum := by
  induction ns generalizing b with
  | nil =>
    simp only [spans, List.not_mem_nil, false_and, exists_false, List.sum_nil, false_iff]
    omega
  | cons n ns ih =>
    have hcons : (∃ r ∈ spans b (n :: ns), r.Contains x) ↔
        Contains ⟨b, n⟩ x ∨ ∃ r ∈ spans (b + n) ns, r.Contains x := by
      simp only [spans, List.mem_cons, or_and_right, exists_or, exists_eq_left]
    rw [hcons, ih, List.sum_cons]
    simp only [Contains]
    omega

theorem pairwise_spans (b : Nat) (ns : List Nat) : (spans b ns).Pairwise Disjoint := by
  induction ns generalizing b with
  | nil => exact .nil
  | cons n ns ih =>
    refine .cons (fun r hr x hx hrx => ?_) (ih _)
    have := contains_spans.mp ⟨r, hr, hrx⟩
    have := hx.2
    simp only at this
    omega

/-- Two lists of blocks meet nowhere if the intervals do not. -/
theorem disjoint_spans (b c : Nat) (ns ms : List Nat) : (∀ r ∈ spans b ns, ∀ s ∈ spans c ms, r.Disjoint s) ↔
    (0 < ns.sum → 0 < ms.sum → b + ns.sum ≤ c ∨ c + ms.sum ≤ b) := by
  have hwhole : (∀ r ∈ spans b ns, ∀ s ∈ spans c ms, r.Disjoint s) ↔
      Disjoint ⟨b, ns.sum⟩ ⟨c, ms.sum⟩ := by
    constructor
    · intro h x hr hs
      obtain ⟨r, hr, hrx⟩ := contains_spans.mpr hr
      obtain ⟨s, hs, hsx⟩ := contains_spans.mpr hs
      exact h r hr s hs x hrx hsx
    · intro h r hr s hs x hrx hsx
      exact h x (contains_spans.mp ⟨r, hr, hrx⟩) (contains_spans.mp ⟨s, hs, hsx⟩)
  rw [hwhole, disjoint_iff]

theorem below_spans (b m : Nat) (ns : List Nat) : (∀ r ∈ spans b ns, r.Below m) ↔ (0 < ns.sum → b + ns.sum ≤ m) := by
  have hwhole : (∀ r ∈ spans b ns, r.Below m) ↔ Below m ⟨b, ns.sum⟩ := by
    constructor
    · intro h x hr
      obtain ⟨r, hr, hrx⟩ := contains_spans.mpr hr
      exact h r hr x hrx
    · intro h r hr x hrx
      exact h x (contains_spans.mp ⟨r, hr, hrx⟩)
  rw [hwhole, below_iff]

end Region

end Arche.Lib
