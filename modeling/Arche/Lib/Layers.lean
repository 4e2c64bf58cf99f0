import Mathlib.Data.Option.Basic

/-!
# Layers of settings

A layer gives values to keys, one after the other; the last one for a key counts. Of several layers
the first that gives the key a value counts.
-/

namespace Arche.Lib

variable {κ ν : Type} [DecidableEq κ]

/-- The value given last for `k`. -/
def lastOf (k : κ) : List (κ × ν) → Option ν
  | [] => none
  | e :: l => (lastOf k l).or (if e.1 = k then some e.2 else none)

/-- The value in the first layer that has one. -/
def resolve (k : κ) : List (List (κ × ν)) → Option ν
  | [] => none
  | l :: ls => (lastOf k l).or (resolve k ls)

theorem lastOf_append (k : κ) (l l' : List (κ × ν)) :
    lastOf k (l ++ l') = (lastOf k l').or (lastOf k l) := by
  induction l with
  | nil => rw [List.nil_append, lastOf, Option.or_none]
  | cons e l ih => rw [List.cons_append, lastOf, ih, lastOf, Option.or_assoc]

theorem lastOf_eq_none_iff (k : κ) (l : List (κ × ν)) :
    lastOf k l = none ↔ ∀ e ∈ l, e.1 ≠ k := by
  induction l with
  | nil => simp [lastOf]
  | cons e l ih => simp [lastOf, Option.or_eq_none_iff, ih, and_comm]

/-- A key that stands in one entry only has the value of that entry. -/
theorem lastOf_of_mem {k : κ} {v : ν} {l : List (κ × ν)} (hnodup : (l.map Prod.fst).Nodup)
    (h : (k, v) ∈ l) : lastOf k l = some v := by
  induction l with
  | nil => cases h
  | cons e l ih =>
    rw [List.map_cons, List.nodup_cons] at hnodup
    rcases List.mem_cons.mp h with rfl | h
    · have hrest : lastOf k l = none := (lastOf_eq_none_iff k l).mpr fun e he heq =>
        hnodup.1 (List.mem_map.mpr ⟨e, he, heq⟩)
      rw [lastOf, hrest, Option.none_or, if_pos rfl]
    · rw [lastOf, ih hnodup.2 h, Option.some_or]

end Arche.Lib
