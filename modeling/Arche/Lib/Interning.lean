import Mathlib.Data.List.Basic
import Mathlib.Data.List.Nodup

/-!
# Tables of distinct entries

`number` is what an intern table is for: a key that is new gets the next number, a key that is not
new has its own. `findOrPush` is how one is programmed: a search with a test over entries that only
stand for keys. `findOrPush_eq` relates the two.
-/

namespace Arche.Lib

variable {α β : Type}

/-- The first entry that passes `same`, or `x` as a new one at the end. -/
def findOrPush (same : α → Bool) (x : α) (l : List α) : Nat × List α :=
  match l.findIdx? same with
  | some i => (i, l)
  | none => (l.length, l ++ [x])

/-- The entries that are there stay where they are. -/
theorem isPrefix_findOrPush (same : α → Bool) (x : α) (l : List α) :
    l <+: (findOrPush same x l).2 := by
  unfold findOrPush
  split
  · exact List.prefix_rfl
  · exact List.prefix_append l [x]

/-- What stands at the place that is found. -/
theorem findOrPush_entry (same : α → Bool) (x : α) (l : List α) :
    ∃ y, (findOrPush same x l).2[(findOrPush same x l).1]? = some y ∧
      (y = x ∨ y ∈ l ∧ same y = true) := by
  unfold findOrPush
  split
  · rename_i i hi
    obtain ⟨h, hs, -⟩ := List.findIdx?_eq_some_iff_getElem.1 hi
    exact ⟨l[i], List.getElem?_eq_getElem h, .inr ⟨List.getElem_mem h, hs⟩⟩
  · exact ⟨x, by simp, .inl rfl⟩

theorem mem_findOrPush {same : α → Bool} {x y : α} {l : List α}
    (h : y ∈ (findOrPush same x l).2) : y ∈ l ∨ y = x := by
  unfold findOrPush at h
  split at h
  · exact .inl h
  · simpa using h

/-- In a table without repetition, keys are equal exactly if their places are. -/
theorem place_inj {t : List β} (ht : t.Nodup) {i j : Nat} {k m : β} (hi : t[i]? = some k)
    (hj : t[j]? = some m) : i = j ↔ k = m := by
  constructor
  · rintro rfl
    exact Option.some.inj (hi.symm.trans hj)
  · rintro rfl
    have hlt := (List.getElem?_eq_some_iff.1 hi).1
    exact (List.getElem?_inj hlt ht).1 (hi.trans hj.symm)

section Keys

variable [DecidableEq β]

/-- The number of a key, and the keys with it. -/
def number (k : β) (t : List β) : Nat × List β :=
  (t.idxOf k, if k ∈ t then t else t ++ [k])

theorem isPrefix_number (k : β) (t : List β) : t <+: (number k t).2 := by
  unfold number
  dsimp only
  split
  · exact List.prefix_rfl
  · exact List.prefix_append t [k]

theorem nodup_number (k : β) {t : List β} (ht : t.Nodup) : (number k t).2.Nodup := by
  unfold number
  dsimp only
  split
  · exact ht
  · rename_i hk
    exact List.nodup_append'.2 ⟨ht, List.nodup_singleton k, by simpa using hk⟩

/-- A key stands at its number. -/
theorem number_getElem? (k : β) (t : List β) : (number k t).2[(number k t).1]? = some k := by
  unfold number
  dsimp only
  split
  · rename_i hk
    exact List.getElem?_idxOf hk
  · rename_i hk
    rw [List.idxOf_of_notMem hk, List.getElem?_append_right (Nat.le_refl _), Nat.sub_self]
    rfl

/-- A search whose test is true of the entries that stand for a key gives that key's number. -/
theorem findOrPush_eq (key : α → β) {same : α → Bool} {x : α} {l : List α} {k : β}
    (hsame : ∀ y ∈ l, same y = true ↔ key y = k) (hx : key x = k) :
    ((findOrPush same x l).1, (findOrPush same x l).2.map key) = number k (l.map key) := by
  unfold findOrPush number
  split
  · rename_i i hi
    obtain ⟨h, hs, hlt⟩ := List.findIdx?_eq_some_iff_getElem.1 hi
    have hk : key l[i] = k := (hsame _ (List.getElem_mem h)).1 hs
    have hmem : k ∈ l.map key := List.mem_map.2 ⟨l[i], List.getElem_mem h, hk⟩
    have hidx : (l.map key).idxOf k = i := by
      rw [List.idxOf, List.findIdx_eq (by simpa using h)]
      refine ⟨by simpa using hk, fun j hj => ?_⟩
      have hne : same l[j] ≠ true := hlt j hj
      simp only [List.getElem_map, beq_eq_false_iff_ne, ne_eq]
      exact fun heq => hne ((hsame _ (List.getElem_mem _)).2 heq)
    rw [if_pos hmem, hidx]
  · rename_i hi
    have hk : k ∉ l.map key := by
      intro hk
      obtain ⟨y, hy, rfl⟩ := List.mem_map.1 hk
      exact absurd ((hsame y hy).2 rfl) (by simpa using List.findIdx?_eq_none_iff.1 hi y hy)
    rw [if_neg hk, List.idxOf_of_notMem hk, List.map_append, List.length_map, List.map_singleton,
      hx]

end Keys

end Arche.Lib
