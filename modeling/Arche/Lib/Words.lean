import Mathlib.Data.List.Sort

/-!
# Texts made of words

A list of words is written as one text with a mark after each word, or before each
word. The words can be read back if none of them has the mark in it; a word that has
the mark reads as the words between.

`strcmp` is the order of C on texts. It is the lexicographic order, so sorting by it
forgets the order of a list and nothing else.
-/

namespace Arche.Lib

variable {α : Type}

/-- Lists that are read through functions with the same kernel. -/
theorem perm_map_iff_of_eq_iff {β γ : Type} [Nonempty β] [Nonempty γ] {f : α → β} {g : α → γ}
    (h : ∀ a b, f a = f b ↔ g a = g b) (xs ys : List α) :
    (xs.map f).Perm (ys.map f) ↔ (xs.map g).Perm (ys.map g) := by
  obtain ⟨e, he⟩ := (Function.factorsThrough_iff f).mp fun a b hab => (h a b).mpr hab
  obtain ⟨d, hd⟩ := (Function.factorsThrough_iff g).mp fun a b hab => (h a b).mp hab
  constructor
  · intro hperm
    rw [hd, ← List.map_map, ← List.map_map]
    exact hperm.map d
  · intro hperm
    rw [he, ← List.map_map, ← List.map_map]
    exact hperm.map e

/-! ## A mark after each word -/

def ended (mark : α) (ws : List (List α)) : List α := ws.flatMap fun w => w ++ [mark]

theorem append_mark_inj {mark : α} {x y s t : List α} (hx : mark ∉ x) (hy : mark ∉ y)
    (h : x ++ mark :: s = y ++ mark :: t) : x = y ∧ s = t := by
  induction x generalizing y with
  | nil =>
    cases y with
    | nil => exact ⟨rfl, (List.cons.inj h).2⟩
    | cons b bs => exact absurd (List.mem_cons.mpr (.inl (List.cons.inj h).1)) hy
  | cons a as ih =>
    cases y with
    | nil => exact absurd (List.mem_cons.mpr (.inl (List.cons.inj h).1.symm)) hx
    | cons b bs =>
      obtain ⟨rfl, htail⟩ := List.cons.inj h
      rw [List.mem_cons, not_or] at hx hy
      obtain ⟨rfl, hst⟩ := ih hx.2 hy.2 htail
      exact ⟨rfl, hst⟩

/-- The same where the mark is the last one. -/
theorem append_last_mark_inj {mark : α} {x y s t : List α} (hs : mark ∉ s) (ht : mark ∉ t)
    (h : x ++ mark :: s = y ++ mark :: t) : x = y ∧ s = t := by
  have hrev : s.reverse ++ mark :: x.reverse = t.reverse ++ mark :: y.reverse := by
    simpa using congrArg List.reverse h
  obtain ⟨hst, hxy⟩ := append_mark_inj (by simpa using hs) (by simpa using ht) hrev
  exact ⟨List.reverse_injective hxy, List.reverse_injective hst⟩

theorem flatten_inj_of_ended {mark : α} {xs ys : List (List α)}
    (hx : ∀ p ∈ xs, ∃ w, p = w ++ [mark] ∧ mark ∉ w) (hy : ∀ p ∈ ys, ∃ w, p = w ++ [mark] ∧ mark ∉ w)
    (h : xs.flatten = ys.flatten) : xs = ys := by
  induction xs generalizing ys with
  | nil =>
    cases ys with
    | nil => rfl
    | cons y ys =>
      obtain ⟨w, rfl, -⟩ := hy y List.mem_cons_self
      simp at h
  | cons x xs ih =>
    obtain ⟨v, rfl, hv⟩ := hx x List.mem_cons_self
    cases ys with
    | nil => simp at h
    | cons y ys =>
      obtain ⟨w, rfl, hw⟩ := hy y List.mem_cons_self
      have h' : v ++ mark :: xs.flatten = w ++ mark :: ys.flatten := by simpa using h
      obtain ⟨rfl, htail⟩ := append_mark_inj hv hw h'
      rw [List.forall_mem_cons] at hx hy
      rw [ih hx.2 hy.2 htail]

theorem ended_inj {mark : α} {xs ys : List (List α)} (hx : ∀ w ∈ xs, mark ∉ w)
    (hy : ∀ w ∈ ys, mark ∉ w) (h : ended mark xs = ended mark ys) : xs = ys := by
  have hparts {ws : List (List α)} (hws : ∀ w ∈ ws, mark ∉ w) :
      ∀ p ∈ ws.map fun w => w ++ [mark], ∃ w, p = w ++ [mark] ∧ mark ∉ w := by
    intro p hp
    obtain ⟨w, hw, rfl⟩ := List.mem_map.mp hp
    exact ⟨w, rfl, hws w hw⟩
  have hmap := flatten_inj_of_ended (hparts hx) (hparts hy) (by simpa [ended, List.flatMap] using h)
  exact List.map_injective_iff.mpr (fun v w => List.append_cancel_right) hmap

/-! ## A mark before each word -/

def led (mark : α) (ws : List (List α)) : List α := ws.flatMap fun w => mark :: w

theorem led_append (mark : α) (xs ys : List (List α)) :
    led mark (xs ++ ys) = led mark xs ++ led mark ys := List.flatMap_append

theorem led_concat (mark : α) (ws : List (List α)) : led mark ws ++ [mark] = mark :: ended mark ws := by
  induction ws with
  | nil => rfl
  | cons w ws ih =>
    have hled : led mark (w :: ws) = mark :: (w ++ led mark ws) := rfl
    have hended : ended mark (w :: ws) = w ++ mark :: ended mark ws := by simp [ended]
    rw [hled, hended, List.cons_append, List.append_assoc, ih]

theorem led_inj {mark : α} {xs ys : List (List α)} (hx : ∀ w ∈ xs, mark ∉ w)
    (hy : ∀ w ∈ ys, mark ∉ w) (h : led mark xs = led mark ys) : xs = ys := by
  have h' : led mark xs ++ [mark] = led mark ys ++ [mark] := by rw [h]
  rw [led_concat, led_concat] at h'
  exact ended_inj hx hy (List.cons.inj h').2

variable [DecidableEq α]

theorem not_mem_of_mem_splitOn {mark : α} {x w : List α} (h : w ∈ x.splitOn mark) : mark ∉ w := by
  induction x generalizing w with
  | nil =>
    rw [List.splitOn_nil, List.mem_singleton] at h
    subst h
    exact List.not_mem_nil
  | cons a as ih =>
    rw [List.splitOn_cons_eq_if_modifyHead] at h
    split at h
    · rcases List.mem_cons.mp h with rfl | h
      · exact List.not_mem_nil
      · exact ih h
    · next ha =>
      obtain ⟨v, vs, hvs⟩ := List.exists_cons_of_ne_nil (List.splitOn_ne_nil mark as)
      rw [hvs] at h ih
      rw [List.modifyHead_cons] at h
      rcases List.mem_cons.mp h with rfl | h
      · rw [List.mem_cons, not_or]
        exact ⟨fun hm => ha (by rw [hm]; exact beq_self_eq_true a), ih List.mem_cons_self⟩
      · exact ih (List.mem_cons_of_mem v h)

theorem led_splitOn (mark : α) (x : List α) : led mark (x.splitOn mark) = mark :: x := by
  induction x with
  | nil => rfl
  | cons a as ih =>
    rw [List.splitOn_cons_eq_if_modifyHead]
    split
    · next ha =>
      rw [beq_iff_eq] at ha
      subst ha
      show a :: ([] ++ led a (as.splitOn a)) = _
      rw [ih, List.nil_append]
    · obtain ⟨v, vs, hvs⟩ := List.exists_cons_of_ne_nil (List.splitOn_ne_nil mark as)
      rw [hvs] at ih ⊢
      have ih' : mark :: (v ++ led mark vs) = mark :: as := ih
      show mark :: (a :: v ++ led mark vs) = _
      rw [List.cons_append, (List.cons.inj ih').2]

/-- The words between the marks of a list of words. -/
def wordsOf (mark : α) (ws : List (List α)) : List (List α) := ws.flatMap (List.splitOn mark)

theorem led_wordsOf (mark : α) (ws : List (List α)) : led mark (wordsOf mark ws) = led mark ws := by
  induction ws with
  | nil => rfl
  | cons w ws ih =>
    show led mark (w.splitOn mark ++ wordsOf mark ws) = mark :: (w ++ led mark ws)
    rw [led_append, led_splitOn, ih, List.cons_append]

/-- Two lists of words have the same text exactly if the words between the marks are the same. -/
theorem led_eq_iff (mark : α) (xs ys : List (List α)) :
    led mark xs = led mark ys ↔ wordsOf mark xs = wordsOf mark ys := by
  have hfree (ws : List (List α)) : ∀ w ∈ wordsOf mark ws, mark ∉ w := by
    intro w hw
    obtain ⟨v, -, hv⟩ := List.mem_flatMap.mp hw
    exact not_mem_of_mem_splitOn hv
  rw [← led_wordsOf mark xs, ← led_wordsOf mark ys]
  exact ⟨led_inj (hfree xs) (hfree ys), fun h => by rw [h]⟩

/-! ## The order of C -/

def strcmp (x y : List Char) : Ordering :=
  List.compareLex compare (x.map Char.toNat) (y.map Char.toNat)

/-- The first `n` characters. -/
def memcmp : Nat → List Char → List Char → Ordering
  | n + 1, a :: as, b :: bs => (compare a.toNat b.toNat).then (memcmp n as bs)
  | _, _, _ => .eq

/-- The shorter of two texts that agree is the smaller one. -/
theorem memcmp_then_length (x y : List Char) :
    (memcmp (min x.length y.length) x y).then (compare x.length y.length) = strcmp x y := by
  induction x generalizing y with
  | nil =>
    cases y with
    | nil => rfl
    | cons b bs =>
      show (compare 0 (bs.length + 1) : Ordering) = .lt
      exact Nat.compare_eq_lt.mpr (Nat.succ_pos _)
  | cons a as ih =>
    cases y with
    | nil =>
      show (compare (as.length + 1) 0 : Ordering) = .gt
      exact Nat.compare_eq_gt.mpr (Nat.succ_pos _)
    | cons b bs =>
      have hmin : min (a :: as).length (b :: bs).length = min as.length bs.length + 1 := by
        simp only [List.length_cons]
        omega
      have hlen : compare (a :: as).length (b :: bs).length = compare as.length bs.length := by
        rcases Nat.lt_trichotomy as.length bs.length with h | h | h
        · rw [Nat.compare_eq_lt.mpr h]
          exact Nat.compare_eq_lt.mpr (Nat.succ_lt_succ h)
        · rw [Nat.compare_eq_eq.mpr h]
          exact Nat.compare_eq_eq.mpr (congrArg Nat.succ h)
        · rw [Nat.compare_eq_gt.mpr h]
          exact Nat.compare_eq_gt.mpr (Nat.succ_lt_succ h)
      have hcons : strcmp (a :: as) (b :: bs) = (compare a.toNat b.toNat).then (strcmp as bs) :=
        List.compareLex_cons_cons
      rw [hmin, hlen, memcmp, hcons, ← ih bs]
      cases compare a.toNat b.toNat <;> rfl

theorem eq_of_strcmp_eq {x y : List Char} (h : strcmp x y = .eq) : x = y := by
  have hmap : x.map Char.toNat = y.map Char.toNat := Std.LawfulEqCmp.eq_of_compare h
  exact List.map_injective_iff.mpr (fun a b hab => Char.toNat_inj.mp hab) hmap

/-- `qsort` by `strcmp`. Texts that compare equal are equal. -/
def sortTexts (ws : List (List Char)) : List (List Char) :=
  ws.insertionSort fun x y => (strcmp x y).isLE = true

theorem perm_sortTexts (ws : List (List Char)) : (sortTexts ws).Perm ws := List.perm_insertionSort _ _

theorem sortTexts_eq_iff (xs ys : List (List Char)) : sortTexts xs = sortTexts ys ↔ xs.Perm ys := by
  constructor
  · intro h
    exact (perm_sortTexts xs).symm.trans (h ▸ perm_sortTexts ys)
  · intro h
    have hswap (x y : List Char) : strcmp x y = (strcmp y x).swap := by
      unfold strcmp
      exact Std.OrientedCmp.eq_swap
    have : Std.Total fun x y => (strcmp x y).isLE = true := by
      refine ⟨fun x y => ?_⟩
      rw [hswap x y]
      cases strcmp y x <;> simp
    have : IsTrans (List Char) fun x y => (strcmp x y).isLE = true := by
      refine ⟨fun x y z => ?_⟩
      unfold strcmp
      exact Std.TransCmp.isLE_trans
    have : Std.Antisymm fun x y => (strcmp x y).isLE = true := by
      refine ⟨fun x y hxy hyx => eq_of_strcmp_eq ?_⟩
      rw [hswap y x] at hyx
      cases hcmp : strcmp x y with
      | lt =>
        rw [hcmp] at hyx
        cases hyx
      | eq => rfl
      | gt =>
        rw [hcmp] at hxy
        cases hxy
    refine List.Perm.eq_of_pairwise' (List.pairwise_insertionSort _ xs)
      (List.pairwise_insertionSort _ ys) ?_
    exact (perm_sortTexts xs).trans (h.trans (perm_sortTexts ys).symm)

end Arche.Lib
