import Mathlib.Data.List.Nodup
import Mathlib.Data.List.Perm.Subperm
import Mathlib.Logic.Relation
import Mathlib.Tactic.Common

/-!
# Marking what can be reached

What is marked is looked into later, the latest first, and what is found in it is marked. Some
things bring others along: these are marked at once, before anything is looked into.

* `mark` and `sweep` run on fuel. The depth of `mark` is bounded by what is not marked yet, and
  everything that is marked is looked into once, so as much fuel as there are things is enough.

`mem_reach_iff`: in the end just what can be reached is marked.
-/

namespace Arche.Lib

open Relation

/-- What is marked, and what of it is still to be looked into. -/
structure Marks (α : Type) where
  marked : List α
  pending : List α
deriving DecidableEq, Repr

namespace Marks

variable {α : Type}

section Operations

variable [DecidableEq α] (eager lazy : α → List α)

/-- Marks `x`, and with it what it brings along. -/
def mark : Nat → α → Marks α → Marks α
  | 0, _, s => s
  | n + 1, x, s =>
    if x ∈ s.marked then s
    else (eager x).foldl (fun s y => mark n y s) ⟨x :: s.marked, x :: s.pending⟩

def markAll (n : Nat) (xs : List α) (s : Marks α) : Marks α :=
  xs.foldl (fun s y => mark eager n y s) s

/-- Looks into what is pending until nothing is. -/
def sweep (n : Nat) : Nat → Marks α → Marks α
  | 0, s => s
  | m + 1, s =>
    match s.pending with
    | [] => s
    | x :: rest => sweep n m (markAll eager n (lazy x) ⟨s.marked, rest⟩)

/-- All that is marked when `roots` are marked first. -/
def reach (n : Nat) (roots : List α) : Marks α :=
  sweep eager lazy n n (markAll eager n roots ⟨[], []⟩)

end Operations

/-! ## What one mark does -/

section Marking

variable {eager lazy : α → List α} {s s' s'' : Marks α} {xs ys new new' all : List α} {n m : Nat}

/-- From `s` to `s'` the things in `new` have been marked, because `xs` were to be. -/
structure Adds (eager : α → List α) (s s' : Marks α) (new xs : List α) : Prop where
  marked : s'.marked = new ++ s.marked
  pending : s'.pending = new ++ s.pending
  nodup : s.marked.Nodup → s'.marked.Nodup
  asked : ∀ x ∈ xs, x ∈ s'.marked
  closed : ∀ x ∈ new, ∀ y ∈ eager x, y ∈ s'.marked
  reached : ∀ y ∈ new, ∃ x ∈ xs, ReflTransGen (fun a b => b ∈ eager a) x y

theorem Adds.nil (hxs : ∀ x ∈ xs, x ∈ s.marked) : Adds eager s s [] xs :=
  ⟨rfl, rfl, fun h => h, hxs, fun _ h => absurd h List.not_mem_nil,
    fun _ h => absurd h List.not_mem_nil⟩

theorem Adds.trans (h : Adds eager s s' new xs) (h' : Adds eager s' s'' new' ys) :
    Adds eager s s'' (new' ++ new) (xs ++ ys) := by
  have hmono : ∀ x ∈ s'.marked, x ∈ s''.marked := fun x hx => by
    rw [h'.marked]
    exact List.mem_append_right _ hx
  refine ⟨?_, ?_, fun hs => h'.nodup (h.nodup hs), ?_, ?_, ?_⟩
  · rw [h'.marked, h.marked, List.append_assoc]
  · rw [h'.pending, h.pending, List.append_assoc]
  · exact List.forall_mem_append.mpr ⟨fun x hx => hmono x (h.asked x hx), h'.asked⟩
  · exact List.forall_mem_append.mpr ⟨h'.closed, fun x hx y hy => hmono y (h.closed x hx y hy)⟩
  · intro y hy
    rcases List.mem_append.mp hy with hy | hy
    · obtain ⟨x, hx, hpath⟩ := h'.reached y hy
      exact ⟨x, List.mem_append_right _ hx, hpath⟩
    · obtain ⟨x, hx, hpath⟩ := h.reached y hy
      exact ⟨x, List.mem_append_left _ hx, hpath⟩

/-- Nothing is marked twice, and nothing but what is in `all`. -/
structure Within (all : List α) (s : Marks α) : Prop where
  nodup : s.marked.Nodup
  sub : s.marked ⊆ all

theorem Within.length_le (h : Within all s) : s.marked.length ≤ all.length :=
  (h.nodup.subperm h.sub).length_le

theorem Within.insert {x : α} (h : Within all s) (hx : x ∈ all) (hfresh : x ∉ s.marked) :
    Within all ⟨x :: s.marked, x :: s.pending⟩ :=
  ⟨List.nodup_cons.mpr ⟨hfresh, h.nodup⟩, List.cons_subset.mpr ⟨hx, h.sub⟩⟩

theorem Within.adds (h : Within all s) (hall : ∀ x ∈ all, eager x ⊆ all) (hxs : xs ⊆ all)
    (hadds : Adds eager s s' new xs) : Within all s' := by
  refine ⟨hadds.nodup h.nodup, fun y hy => ?_⟩
  rw [hadds.marked] at hy
  rcases List.mem_append.mp hy with hnew | hold
  · obtain ⟨x, hx, hpath⟩ := hadds.reached y hnew
    clear hy hnew
    induction hpath with
    | refl => exact hxs hx
    | tail _ hstep ih => exact hall _ ih hstep
  · exact h.sub hold

/-- `b` is found in `a`, or comes with it. -/
def Leads (eager lazy : α → List α) (a b : α) : Prop := b ∈ eager a ∨ b ∈ lazy a

theorem leads_of_eager {x y : α} (h : ReflTransGen (fun a b => b ∈ eager a) x y) :
    ReflTransGen (Leads eager lazy) x y :=
  ReflTransGen.mono (p := Leads eager lazy) (fun _ _ hstep => .inl hstep) x y h

variable [DecidableEq α]

/-- With fuel for what is not marked yet. -/
theorem markAll_adds_of (hall : ∀ x ∈ all, eager x ⊆ all)
    (hmark : ∀ x ∈ all, ∀ s : Marks α, Within all s → all.length ≤ n + s.marked.length →
      ∃ new, Adds eager s (mark eager n x s) new [x]) :
    ∀ (xs : List α) (s : Marks α), xs ⊆ all → Within all s → all.length ≤ n + s.marked.length →
      ∃ new, Adds eager s (markAll eager n xs s) new xs
  | [], s, _, _, _ => ⟨[], .nil fun _ h => absurd h List.not_mem_nil⟩
  | x :: xs, s, hxs, hs, hfuel => by
    obtain ⟨hx, hxs⟩ := List.cons_subset.mp hxs
    obtain ⟨new, hnew⟩ := hmark x hx s hs hfuel
    have hs' := hs.adds hall (fun y hy => List.mem_singleton.mp hy ▸ hx) hnew
    have hlen := congrArg List.length hnew.marked
    rw [List.length_append] at hlen
    obtain ⟨new', hnew'⟩ := markAll_adds_of hall hmark xs _ hxs hs' (by omega)
    exact ⟨new' ++ new, hnew.trans hnew'⟩

theorem mark_adds (hall : ∀ x ∈ all, eager x ⊆ all) : ∀ (n : Nat) (x : α), x ∈ all →
    ∀ s : Marks α, Within all s → all.length ≤ n + s.marked.length →
    ∃ new, Adds eager s (mark eager n x s) new [x]
  | 0, x, hx, s, hs, hfuel => by
    refine ⟨[], .nil (List.forall_mem_singleton.mpr ?_)⟩
    refine Decidable.byContradiction fun hfresh => ?_
    have hlen := (hs.insert hx hfresh).length_le
    rw [List.length_cons] at hlen
    omega
  | n + 1, x, hx, s, hs, hfuel => by
    rw [mark]
    split
    next hmem => exact ⟨[], .nil (List.forall_mem_singleton.mpr hmem)⟩
    next hfresh =>
      have hlen : all.length ≤ n + (x :: s.marked).length := by rw [List.length_cons]; omega
      obtain ⟨new, hnew⟩ := markAll_adds_of hall (mark_adds hall n) (eager x) _ (hall x hx)
        (hs.insert hx hfresh) hlen
      refine ⟨new ++ [x], ?_, ?_, fun hnodup => hnew.nodup (hs.insert hx hfresh).nodup, ?_, ?_, ?_⟩
      · rw [List.append_assoc]
        exact hnew.marked
      · rw [List.append_assoc]
        exact hnew.pending
      · exact List.forall_mem_singleton.mpr
          (hnew.marked ▸ List.mem_append_right _ List.mem_cons_self)
      · exact List.forall_mem_append.mpr ⟨hnew.closed, List.forall_mem_singleton.mpr hnew.asked⟩
      · intro y hy
        refine ⟨x, List.mem_singleton_self x, ?_⟩
        rcases List.mem_append.mp hy with hy | hy
        · obtain ⟨z, hz, hpath⟩ := hnew.reached y hy
          exact .head hz hpath
        · rw [List.mem_singleton.mp hy]

theorem markAll_adds (hall : ∀ x ∈ all, eager x ⊆ all) (hxs : xs ⊆ all) (hs : Within all s)
    (hfuel : all.length ≤ n + s.marked.length) :
    ∃ new, Adds eager s (markAll eager n xs s) new xs :=
  markAll_adds_of hall (mark_adds hall n) xs s hxs hs hfuel

/-! ## What the sweep does -/

/-- What holds between two looks. -/
structure Kept (eager lazy : α → List α) (all roots : List α) (s : Marks α) : Prop where
  within : Within all s
  rooted : ∀ r ∈ roots, r ∈ s.marked
  closed : ∀ x ∈ s.marked, ∀ y ∈ eager x, y ∈ s.marked
  looked : ∀ x ∈ s.marked, x ∈ s.pending ∨ ∀ y ∈ lazy x, y ∈ s.marked
  reached : ∀ x ∈ s.marked, ∃ r ∈ roots, ReflTransGen (Leads eager lazy) r x
  pending : s.pending ⊆ s.marked

theorem kept_start (hall : ∀ x ∈ all, eager x ⊆ all) {roots : List α} (hroots : roots ⊆ all)
    (hn : all.length ≤ n) : Kept eager lazy all roots (markAll eager n roots ⟨[], []⟩) ∧
      (markAll eager n roots ⟨[], []⟩).pending = (markAll eager n roots ⟨[], []⟩).marked := by
  have hempty : Within all (⟨[], []⟩ : Marks α) := ⟨List.nodup_nil, List.nil_subset _⟩
  obtain ⟨new, hnew⟩ := markAll_adds hall hroots hempty hn
  have hmarked := hnew.marked
  have hpending := hnew.pending
  rw [List.append_nil] at hmarked hpending
  refine ⟨⟨hempty.adds hall hroots hnew, hnew.asked, ?_, ?_, ?_, ?_⟩, by rw [hmarked, hpending]⟩
  · intro x hx
    rw [hmarked] at hx
    exact hnew.closed x hx
  · intro x hx
    rw [hmarked] at hx
    exact .inl (by rwa [hpending])
  · intro x hx
    rw [hmarked] at hx
    obtain ⟨r, hr, hpath⟩ := hnew.reached x hx
    exact ⟨r, hr, leads_of_eager hpath⟩
  · rw [hmarked, hpending]
    exact List.Subset.refl _

/-- One look. -/
theorem Kept.look (hall : ∀ x ∈ all, eager x ⊆ all) (hlazy : ∀ x ∈ all, lazy x ⊆ all)
    {roots : List α} {x : α} {rest : List α} (h : Kept eager lazy all roots s)
    (hpending : s.pending = x :: rest) (hn : all.length ≤ n) :
    ∃ new, (markAll eager n (lazy x) ⟨s.marked, rest⟩).marked = new ++ s.marked ∧
      (markAll eager n (lazy x) ⟨s.marked, rest⟩).pending = new ++ rest ∧
      Kept eager lazy all roots (markAll eager n (lazy x) ⟨s.marked, rest⟩) := by
  have hx : x ∈ s.marked := h.pending (hpending ▸ List.mem_cons_self)
  have hs : Within all ⟨s.marked, rest⟩ := ⟨h.within.nodup, h.within.sub⟩
  have hsub := hlazy x (h.within.sub hx)
  obtain ⟨new, hnew⟩ := markAll_adds (n := n) hall hsub hs (by omega)
  have hmem : ∀ y, y ∈ (markAll eager n (lazy x) ⟨s.marked, rest⟩).marked ↔
      y ∈ new ∨ y ∈ s.marked := fun y => by rw [hnew.marked, List.mem_append]
  refine ⟨new, hnew.marked, hnew.pending, hs.adds hall hsub hnew, ?_, ?_, ?_, ?_, ?_⟩
  · exact fun r hr => (hmem r).mpr (.inr (h.rooted r hr))
  · intro y hy z hz
    rcases (hmem y).mp hy with hy | hy
    · exact hnew.closed y hy z hz
    · exact (hmem z).mpr (.inr (h.closed y hy z hz))
  · intro y hy
    rw [hnew.pending]
    rcases (hmem y).mp hy with hy | hy
    · exact .inl (List.mem_append_left _ hy)
    · rcases h.looked y hy with hwait | hdone
      · rw [hpending] at hwait
        rcases List.mem_cons.mp hwait with rfl | hwait
        · exact .inr hnew.asked
        · exact .inl (List.mem_append_right _ hwait)
      · exact .inr fun z hz => (hmem z).mpr (.inr (hdone z hz))
  · intro y hy
    rcases (hmem y).mp hy with hy | hy
    · obtain ⟨z, hz, hpath⟩ := hnew.reached y hy
      obtain ⟨r, hr, hroot⟩ := h.reached x hx
      exact ⟨r, hr, (hroot.tail (.inr hz)).trans (leads_of_eager hpath)⟩
    · exact h.reached y hy
  · intro y hy
    rw [hnew.pending] at hy
    rcases List.mem_append.mp hy with hy | hy
    · exact (hmem y).mpr (.inl hy)
    · exact (hmem y).mpr (.inr (h.pending (hpending ▸ List.mem_cons_of_mem _ hy)))

theorem Kept.sweep (hall : ∀ x ∈ all, eager x ⊆ all) (hlazy : ∀ x ∈ all, lazy x ⊆ all)
    {roots : List α} (hn : all.length ≤ n) : ∀ (m : Nat) (s : Marks α),
    Kept eager lazy all roots s → all.length + s.pending.length ≤ m + s.marked.length →
    Kept eager lazy all roots (sweep eager lazy n m s) ∧ (sweep eager lazy n m s).pending = []
  | 0, s, h, hfuel => by
    have hlen := h.within.length_le
    rw [Marks.sweep]
    exact ⟨h, List.eq_nil_of_length_eq_zero (by omega)⟩
  | m + 1, s, h, hfuel => by
    rw [Marks.sweep]
    split
    next hpending => exact ⟨h, hpending⟩
    next x rest hpending =>
      obtain ⟨new, hmarked, hwait, hkept⟩ := h.look hall hlazy hpending hn
      refine Kept.sweep hall hlazy hn m _ hkept ?_
      rw [hmarked, hwait, List.length_append, List.length_append]
      rw [hpending, List.length_cons] at hfuel
      omega

/-- Just what can be reached from the roots is marked. -/
theorem mem_reach_iff (hall : ∀ x ∈ all, eager x ⊆ all) (hlazy : ∀ x ∈ all, lazy x ⊆ all)
    {roots : List α} (hroots : roots ⊆ all) (hn : all.length ≤ n) (x : α) :
    x ∈ (reach eager lazy n roots).marked ↔
      ∃ r ∈ roots, ReflTransGen (Leads eager lazy) r x := by
  obtain ⟨(hstart : Kept eager lazy all roots _), heq⟩ := kept_start hall hroots hn
  obtain ⟨hkept, hdone⟩ := hstart.sweep hall hlazy hn n _ (by rw [heq]; omega)
  refine ⟨hkept.reached x, ?_⟩
  rintro ⟨r, hr, hpath⟩
  induction hpath with
  | refl => exact hkept.rooted r hr
  | tail _ hstep ih =>
    rcases hstep with hstep | hstep
    · exact hkept.closed _ ih _ hstep
    · rcases hkept.looked _ ih with hwait | hlooked
      · rw [hdone] at hwait
        exact absurd hwait List.not_mem_nil
      · exact hlooked _ hstep

end Marking

end Marks

end Arche.Lib
