import Mathlib.Data.Fintype.Card
import Mathlib.Data.List.Chain
import Mathlib.Data.List.Nodup
import Mathlib.Data.List.Perm.Subperm
import Mathlib.Data.Set.Finite.List
import Mathlib.Logic.Relation
import Mathlib.Tactic.Common

/-!
# Following links

A relation links a thing to those that may come after it. A `Trail` of `a` is what is met from `a`
on, up to something that has no link. `followed` is the usual loop over a table of links, with a
limit to the number of links it follows.
-/

namespace Arche.Lib

open Relation

variable {α : Type}

section Trails

variable {R : α → α → Prop}

/-- What comes after `a`, to the end. -/
inductive Trail (R : α → α → Prop) : α → List α → Prop
  | done {a : α} : (∀ b, ¬ R a b) → Trail R a []
  | link {a b : α} {l : List α} : R a b → Trail R b l → Trail R a (b :: l)

/-- All ways on from `a` end, and there is only one. -/
def OnlyTrail (R : α → α → Prop) (a : α) (l : List α) : Prop := ∀ l', Trail R a l' ↔ l' = l

/-- If everything has one trail, it has one link at most. -/
theorem link_unique (h : ∀ a, ∃ l, OnlyTrail R a l) {a b c : α} (hb : R a b) (hc : R a c) :
    b = c := by
  obtain ⟨l, hl⟩ := h a
  obtain ⟨lb, hlb⟩ := h b
  obtain ⟨lc, hlc⟩ := h c
  have hthroughB : b :: lb = l := (hl _).mp (.link hb ((hlb lb).mpr rfl))
  have hthroughC : c :: lc = l := (hl _).mp (.link hc ((hlc lc).mpr rfl))
  exact (List.cons.inj (hthroughB.trans hthroughC.symm)).1

/-- Either everything ends within `n` links, or there are more than `n`. -/
theorem exists_trail_or_path (R : α → α → Prop) (n : Nat) (a : α) :
    (∃ l, Trail R a l ∧ l.length ≤ n) ∨ ∃ l, List.IsChain R (a :: l) ∧ l.length = n + 1 := by
  induction n generalizing a with
  | zero =>
    by_cases h : ∃ b, R a b
    · obtain ⟨b, hb⟩ := h
      exact .inr ⟨[b], by simpa using hb, rfl⟩
    · exact .inl ⟨[], .done fun b hb => h ⟨b, hb⟩, Nat.le_refl 0⟩
  | succ n ih =>
    by_cases h : ∃ b, R a b
    · obtain ⟨b, hb⟩ := h
      rcases ih b with ⟨l, hl, hlen⟩ | ⟨l, hl, hlen⟩
      · exact .inl ⟨b :: l, .link hb hl, Nat.succ_le_succ hlen⟩
      · exact .inr ⟨b :: l, List.isChain_cons_cons.mpr ⟨hb, hl⟩, by rw [List.length_cons, hlen]⟩
    · exact .inl ⟨[], .done fun b hb => h ⟨b, hb⟩, Nat.zero_le _⟩

/-- With finitely many things to come and no way back, all ways on from `a` end. -/
theorem acc_of_finite {l : List α} (hmem : ∀ x y, R x y → y ∈ l) {a : α}
    (hacyclic : ∀ x, ReflTransGen R a x → ¬ TransGen R x x) : Acc (fun y x => R x y) a := by
  let Met := {x : α // ReflTransGen R a x}
  have hfinite : Finite Met := by
    refine Set.Finite.subset (List.finite_toSet (a :: l)) fun x hx => ?_
    rcases ReflTransGen.cases_tail hx with rfl | ⟨y, -, hy⟩
    · exact List.mem_cons_self
    · exact List.mem_cons_of_mem _ (hmem y x hy)
  have hwf : WellFounded fun x y : Met => TransGen R y.1 x.1 :=
    @Finite.wellFounded_of_trans_of_irrefl Met hfinite _ ⟨fun _ _ _ h h' => h'.trans h⟩
      ⟨fun x => hacyclic x.1 x.2⟩
  suffices h : ∀ x : Met, Acc (fun y x => R x y) x.1 from h ⟨a, .refl⟩
  intro x
  induction x using hwf.induction with
  | _ x ih => exact ⟨_, fun y hy => ih ⟨y, x.2.tail hy⟩ (.single hy)⟩

/-- Nothing is met twice where no link leads back. -/
theorem path_nodup (hacyclic : ∀ x, ¬ TransGen R x x) {a : α} {l : List α}
    (h : List.IsChain R (a :: l)) : (a :: l).Nodup := by
  have hpairs : (a :: l).Pairwise (TransGen R) :=
    List.isChain_iff_pairwise.mp (h.imp fun _ _ => TransGen.single)
  refine hpairs.imp fun {x y} hxy => ?_
  rintro rfl
  exact hacyclic x hxy

theorem path_mem {a : α} {l : List α} (h : List.IsChain R (a :: l)) {b : α} (hb : b ∈ l) :
    ∃ x, R x b := by
  induction l generalizing a with
  | nil => cases hb
  | cons c l ih =>
    obtain ⟨hac, hrest⟩ := List.isChain_cons_cons.mp h
    rcases List.mem_cons.mp hb with rfl | hmem
    · exact ⟨a, hac⟩
    · exact ih hrest hmem

/-- Where no link leads back, a trail has no more links than there are things a link leads to. -/
theorem exists_trail (hacyclic : ∀ x, ¬ TransGen R x x) {outs : List α}
    (houts : ∀ a b, R a b → b ∈ outs) (a : α) :
    ∃ l, Trail R a l ∧ l.length ≤ outs.length := by
  rcases exists_trail_or_path R outs.length a with h | ⟨l, hl, hlen⟩
  · exact h
  · have hnodup : l.Nodup := (path_nodup hacyclic hl).of_cons
    have hsub : l ⊆ outs := fun b hb =>
      have ⟨x, hx⟩ := path_mem hl hb
      houts x b hx
    have hle := (hnodup.subperm hsub).length_le
    omega

namespace Trail

/-- The trail of what is met is the rest. -/
theorem from_mem {a b : α} {l : List α} (h : Trail R a l) (hb : b ∈ l) :
    ∃ l', Trail R b l' ∧ l'.length < l.length := by
  induction h with
  | done _ => cases hb
  | link _ hrest ih =>
    rcases List.mem_cons.mp hb with rfl | hmem
    · exact ⟨_, hrest, Nat.lt_succ_self _⟩
    · obtain ⟨l', hl', hlt⟩ := ih hmem
      exact ⟨l', hl', Nat.lt_succ_of_lt hlt⟩

variable (hfun : ∀ a b c, R a b → R a c → b = c)
include hfun

theorem unique {a : α} {l l' : List α} (h : Trail R a l) (h' : Trail R a l') : l = l' := by
  induction h generalizing l' with
  | done hend =>
    cases h' with
    | done _ => rfl
    | link hb _ => exact absurd hb (hend _)
  | link hb _ ih =>
    cases h' with
    | done hend => exact absurd hb (hend _)
    | link hb' h' =>
      obtain rfl := hfun _ _ _ hb hb'
      rw [ih h']

theorem only {a : α} {l : List α} (h : Trail R a l) : OnlyTrail R a l := by
  intro l'
  constructor
  · exact fun h' => h'.unique hfun h
  · rintro rfl
    exact h

theorem mem_iff {a b : α} {l : List α} (h : Trail R a l) : b ∈ l ↔ TransGen R a b := by
  induction h with
  | done hend =>
    constructor
    · intro hb
      cases hb
    · intro hb
      obtain ⟨c, hc, -⟩ := TransGen.head'_iff.mp hb
      exact absurd hc (hend c)
  | @link a c l hc _ ih =>
    rw [List.mem_cons, ih, TransGen.head'_iff (a := a)]
    constructor
    · rintro (rfl | hcb)
      · exact ⟨b, hc, .refl⟩
      · exact ⟨c, hc, hcb.to_reflTransGen⟩
    · rintro ⟨d, hd, hdb⟩
      obtain rfl := hfun _ _ _ hc hd
      rcases ReflTransGen.cases_head_iff.mp hdb with rfl | hmore
      · exact .inl rfl
      · exact .inr (TransGen.head'_iff.mpr hmore)

theorem acyclic {a : α} {l : List α} (h : Trail R a l) : ¬ TransGen R a a := by
  intro hloop
  obtain ⟨l', hl', hlt⟩ := from_mem h ((mem_iff hfun h).mpr hloop)
  rw [unique hfun hl' h] at hlt
  exact Nat.lt_irrefl _ hlt

theorem nodup {a : α} {l : List α} (h : Trail R a l) : l.Nodup := by
  induction h with
  | done _ => exact List.nodup_nil
  | @link a b l hb hrest ih =>
    refine List.nodup_cons.mpr ⟨fun hmem => ?_, ih⟩
    exact hrest.acyclic hfun ((hrest.mem_iff hfun).mp hmem)

/-- Links from `a` on are links of its trail. -/
theorem length_path_le {a : α} {l p : List α} (h : Trail R a l)
    (hp : List.IsChain R (a :: p)) : p.length ≤ l.length := by
  induction h generalizing p with
  | done hend =>
    cases p with
    | nil => exact Nat.le_refl 0
    | cons b p => exact absurd (List.isChain_cons_cons.mp hp).1 (hend b)
  | link hb _ ih =>
    cases p with
    | nil => exact Nat.zero_le _
    | cons c p =>
      obtain ⟨hc, hrest⟩ := List.isChain_cons_cons.mp hp
      obtain rfl := hfun _ _ _ hb hc
      exact Nat.succ_le_succ (ih hrest)

end Trail

end Trails

/-! ## Tables of links -/

section Tables

variable {f : α → Option α}

theorem table_fun (a b c : α) (hb : f a = some b) (hc : f a = some c) : b = c :=
  Option.some.inj (hb.symm.trans hc)

/-- The last of up to `n` links from `a`. -/
def followed (f : α → Option α) : Nat → α → Option α
  | 0, _ => none
  | n + 1, a => (f a).map fun b => (followed f n b).getD b

theorem followed_eq {a : α} {l : List α} (h : Trail (fun a b => f a = some b) a l) (n : Nat) :
    followed f n a = (l.take n).getLast? := by
  induction h generalizing n with
  | done hend =>
    cases n with
    | zero => rfl
    | succ n => rw [followed, Option.eq_none_iff_forall_ne_some.mpr hend]; rfl
  | link hb _ ih =>
    cases n with
    | zero => rfl
    | succ n => rw [followed, hb, Option.map_some, ih, List.take_succ_cons, List.getLast?_cons]

/-- Without repetition, the first `n` are all exactly if there are no more. -/
theorem take_covers_iff {l : List α} (hnodup : l.Nodup) (n : Nat) :
    (∀ x ∈ l, x ∈ l.take n) ↔ l.length ≤ n := by
  constructor
  · intro h
    have hle := (hnodup.subperm h).length_le
    rw [List.length_take] at hle
    omega
  · exact fun hle x hx => by rwa [List.take_of_length_le hle]

/-- The end is found exactly if the limit is not below the number of links. -/
theorem followed_eq_last_iff {a : α} {l : List α} (h : Trail (fun a b => f a = some b) a l)
    (n : Nat) : followed f (n + 1) a = l.getLast? ↔ l.length ≤ n + 1 := by
  rw [followed_eq h]
  constructor
  · intro heq
    by_contra hlong
    have hnodup := h.nodup table_fun
    rw [List.getLast?_eq_getElem?, List.getLast?_eq_getElem?, List.length_take,
      Nat.min_eq_left (by omega), List.getElem?_take_of_lt (by omega)] at heq
    have hpos := (List.getElem?_inj (by omega) hnodup).mp heq
    omega
  · exact fun hle => by rw [List.take_of_length_le hle]

end Tables

end Arche.Lib
