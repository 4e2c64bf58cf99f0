import Mathlib.Data.List.Nodup
import Mathlib.Data.List.Perm.Subperm
import Mathlib.Logic.Relation
import Mathlib.Tactic.Common

/-!
# Work lists that forget what they know by a key

Things wait in a list until they are made, and making one may ask for others. Whether a thing is
known already is decided by its key. `Step` says what may happen to one thing that waits, and `Kept`
what holds at all times. When nothing waits any more, each thing asked for has been made up to its
key (`made_of_known`); it has been made itself where the keys tell the things apart
(`Kept.mem_iff`). With finitely many things there are no steps for ever (`Kept.ends`).
-/

namespace Arche.Lib

open Relation

/-- What waits, and what is made. -/
structure Worklist (δ : Type) where
  pending : List δ
  made : List δ

namespace Worklist

variable {δ κ : Type} (key : δ → κ) (asks : δ → δ → Prop)

/-- The keys of what waits or is made. -/
def keys (w : Worklist δ) : List κ := (w.pending ++ w.made).map key

/-- `d` is made, `rest` is what waits besides: what it asks for is known after it, and nothing else
is new. -/
structure Makes (w w' : Worklist δ) (d : δ) (rest : List δ) : Prop where
  fresh : key d ∉ w.made.map key
  adds : w'.made = w.made ++ [d]
  waits : rest ⊆ w'.pending
  news : ∀ x ∈ w'.pending, x ∈ rest ∨ asks d x
  known : ∀ x, asks d x → key x ∈ w'.keys key

/-- One thing that waits is made, or dropped where its key is that of something made. -/
inductive Step (w w' : Worklist δ) : Prop
  | make {d : δ} {rest : List δ} : w.pending.Perm (d :: rest) → Makes key asks w w' d rest →
      Step w w'
  | drop {d : δ} : w.pending.Perm (d :: w'.pending) → key d ∈ w.made.map key →
      w'.made = w.made → Step w w'

/-- What holds at all times, where the things in `roots` are asked for at the start. -/
structure Kept (roots : δ → Prop) (w : Worklist δ) : Prop where
  nodup : (w.made.map key).Nodup
  known : ∀ r, roots r → key r ∈ w.keys key
  closed : ∀ d ∈ w.made, ∀ x, asks d x → key x ∈ w.keys key
  asked : ∀ d ∈ w.pending ++ w.made, ∃ r, roots r ∧ ReflTransGen asks r d

variable {key asks} {roots : δ → Prop} {w w' : Worklist δ}

theorem kept_start {pending : List δ} (hroots : ∀ x ∈ pending, roots x)
    (hknown : ∀ r, roots r → key r ∈ pending.map key) : Kept key asks roots ⟨pending, []⟩ where
  nodup := List.nodup_nil
  known r hr := by rw [keys, List.append_nil]; exact hknown r hr
  closed _ h := absurd h List.not_mem_nil
  asked x hx := ⟨x, hroots x (by rwa [List.append_nil] at hx), .refl⟩

theorem Kept.makes {d : δ} {rest : List δ} (h : Kept key asks roots w)
    (hperm : ∀ x, x ∈ w.pending ↔ x = d ∨ x ∈ rest) (hmakes : Makes key asks w w' d rest) :
    Kept key asks roots w' := by
  have hkeys : ∀ k ∈ w.keys key, k ∈ w'.keys key := by
    intro k hk
    obtain ⟨x, hx, rfl⟩ := List.mem_map.mp hk
    refine List.mem_map_of_mem (List.mem_append.mpr ?_)
    rcases List.mem_append.mp hx with hx | hx
    · rcases (hperm x).mp hx with rfl | hx
      · exact .inr (hmakes.adds ▸ List.mem_append_right _ (List.mem_singleton_self _))
      · exact .inl (hmakes.waits hx)
    · exact .inr (hmakes.adds ▸ List.mem_append_left _ hx)
  have hd := h.asked d (List.mem_append_left _ ((hperm d).mpr (.inl rfl)))
  refine ⟨?_, fun r hr => hkeys _ (h.known r hr), fun x hx y hy => ?_, fun x hx => ?_⟩
  · rw [hmakes.adds, List.map_append, List.nodup_append]
    refine ⟨h.nodup, List.nodup_singleton _, fun a ha b hb heq => hmakes.fresh ?_⟩
    rw [← List.mem_singleton.mp hb, ← heq]
    exact ha
  · rw [hmakes.adds] at hx
    rcases List.mem_append.mp hx with hx | hx
    · exact hkeys _ (h.closed x hx y hy)
    · rw [List.mem_singleton] at hx
      exact hmakes.known y (hx ▸ hy)
  · rcases List.mem_append.mp hx with hx | hx
    · rcases hmakes.news x hx with hx | hx
      · exact h.asked x (List.mem_append_left _ ((hperm x).mpr (.inr hx)))
      · obtain ⟨r, hr, hpath⟩ := hd
        exact ⟨r, hr, hpath.tail hx⟩
    · rw [hmakes.adds] at hx
      rcases List.mem_append.mp hx with hx | hx
      · exact h.asked x (List.mem_append_right _ hx)
      · exact List.mem_singleton.mp hx ▸ hd

theorem Kept.drop {d : δ} (h : Kept key asks roots w)
    (hperm : ∀ x, x ∈ w.pending ↔ x = d ∨ x ∈ w'.pending) (hdone : key d ∈ w.made.map key)
    (hmade : w'.made = w.made) : Kept key asks roots w' := by
  have hkeys : ∀ k ∈ w.keys key, k ∈ w'.keys key := by
    intro k hk
    obtain ⟨x, hx, rfl⟩ := List.mem_map.mp hk
    rcases List.mem_append.mp hx with hx | hx
    · rcases (hperm x).mp hx with rfl | hx
      · rw [keys, List.map_append, hmade]
        exact List.mem_append_right _ hdone
      · exact List.mem_map_of_mem (List.mem_append_left _ hx)
    · exact List.mem_map_of_mem (List.mem_append_right _ (hmade ▸ hx))
  refine ⟨hmade ▸ h.nodup, fun r hr => hkeys _ (h.known r hr),
    fun x hx y hy => hkeys _ (h.closed x (hmade ▸ hx) y hy), fun x hx => h.asked x ?_⟩
  rcases List.mem_append.mp hx with hx | hx
  · exact List.mem_append_left _ ((hperm x).mpr (.inr hx))
  · exact List.mem_append_right _ (hmade ▸ hx)

theorem Kept.step (h : Kept key asks roots w) (hstep : Step key asks w w') :
    Kept key asks roots w' := by
  cases hstep with
  | make hperm hmakes =>
    exact h.makes (fun x => by rw [hperm.mem_iff, List.mem_cons]) hmakes
  | drop hperm hdone hmade =>
    exact h.drop (fun x => by rw [hperm.mem_iff, List.mem_cons]) hdone hmade

/-! ## When nothing waits -/

theorem made_of_known (hdone : w.pending = []) {x : δ} (h : key x ∈ w.keys key) :
    ∃ y ∈ w.made, key y = key x := by
  rw [keys, hdone, List.nil_append] at h
  exact List.mem_map.mp h

/-- Where the keys tell apart what is asked for, just that is made. -/
theorem Kept.mem_iff (h : Kept key asks roots w) (hdone : w.pending = [])
    (hinj : ∀ r r' d d', roots r → roots r' → ReflTransGen asks r d → ReflTransGen asks r' d' →
      key d = key d' → d = d') (d : δ) :
    d ∈ w.made ↔ ∃ r, roots r ∧ ReflTransGen asks r d := by
  have hmade : ∀ r x, roots r → ReflTransGen asks r x → key x ∈ w.keys key → x ∈ w.made := by
    intro r x hr hpath hkey
    obtain ⟨y, hy, heq⟩ := made_of_known hdone hkey
    obtain ⟨r', hr', hpath'⟩ := h.asked y (List.mem_append_right _ hy)
    exact hinj r' r y x hr' hr hpath' hpath heq ▸ hy
  constructor
  · exact fun hd => h.asked d (List.mem_append_right _ hd)
  · rintro ⟨r, hr, hpath⟩
    induction hpath with
    | refl => exact hmade r r hr .refl (h.known r hr)
    | tail hpath hstep ih => exact hmade r _ hr (hpath.tail hstep) (h.closed _ ih _ hstep)

/-- With finitely many things to ask for, a loop that takes steps while something waits comes to an
end: by what is still to be made, and by what waits. -/
theorem Kept.ends (h : Kept key asks roots w) (all : List δ)
    (hall : ∀ r d, roots r → ReflTransGen asks r d → d ∈ all) (ends : Worklist δ → Prop)
    (hends : ∀ w, Kept key asks roots w → (∀ w', Step key asks w w' → ends w') → ends w) :
    ends w := by
  suffices hsuff : ∀ m n w, Kept key asks roots w → all.length - w.made.length = m →
      w.pending.length = n → ends w from hsuff _ _ w h rfl rfl
  intro m
  induction m using Nat.strongRecOn with
  | ind m ihm =>
    intro n
    induction n using Nat.strongRecOn with
    | ind n ihn =>
      intro w hw hm hn
      refine hends w hw fun w' hstep => ?_
      have hw' := hw.step hstep
      have hmade : w'.made.length ≤ all.length := by
        have hnodup : w'.made.Nodup := hw'.nodup.of_map key
        refine (hnodup.subperm fun d hd => ?_).length_le
        obtain ⟨r, hr, hpath⟩ := hw'.asked d (List.mem_append_right _ hd)
        exact hall r d hr hpath
      cases hstep with
      | make _ hmakes =>
        have hlen := congrArg List.length hmakes.adds
        rw [List.length_append, List.length_singleton] at hlen
        exact ihm _ (by omega) _ w' hw' rfl rfl
      | drop hperm _ heq =>
        have hlen := hperm.length_eq
        rw [List.length_cons] at hlen
        exact ihn _ (by omega) w' hw' (heq ▸ hm) rfl

end Worklist

/-! ## Finitely many lists -/

/-- The lists over `l` with at most `n` places. -/
def listsUpTo {α : Type} (l : List α) : Nat → List (List α)
  | 0 => [[]]
  | n + 1 => [] :: l.flatMap fun a => (listsUpTo l n).map (a :: ·)

theorem mem_listsUpTo {α : Type} {l xs : List α} {n : Nat} (hlen : xs.length ≤ n) (hmem : xs ⊆ l) :
    xs ∈ listsUpTo l n := by
  induction n generalizing xs with
  | zero =>
    rw [List.eq_nil_of_length_eq_zero (Nat.le_zero.mp hlen)]
    exact List.mem_singleton_self _
  | succ n ih =>
    cases xs with
    | nil => exact List.mem_cons_self
    | cons a xs =>
      rw [List.cons_subset] at hmem
      exact List.mem_cons_of_mem _ (List.mem_flatMap.mpr ⟨a, hmem.1,
        List.mem_map_of_mem (ih (Nat.le_of_succ_le_succ hlen) hmem.2)⟩)

end Arche.Lib
