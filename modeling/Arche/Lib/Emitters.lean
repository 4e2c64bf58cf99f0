import Mathlib.Tactic.Common

/-!
# Steps of code generation

An `Emitter` goes from a state of code generation to the code it emits and the state after, or does
not end. `Mirrored` compares two emitters on states that `e` relates: what they leave, and where
they emit the same code. It is built up along `all` and `within` as the emitters are. -/

namespace Arche.Lib

/-- A step of code generation: the code it emits and the state after, if it ends. -/
def Emitter (σ ι : Type) := σ → Option (List ι × σ)

namespace Emitter

variable {σ τ ι : Type}

/-- Emits what the state says. -/
def tell (f : σ → List ι) : Emitter σ ι := fun s => some (f s, s)

def modify (f : σ → σ) : Emitter σ ι := fun s => some ([], f s)

def andThen (f g : Emitter σ ι) : Emitter σ ι := fun s =>
  (f s).bind fun p => (g p.2).map fun q => (p.1 ++ q.1, q.2)

def all : List (Emitter σ ι) → Emitter σ ι
  | [] => tell fun _ => []
  | f :: fs => f.andThen (all fs)

/-- `f` between an `enter` and a `leave`. -/
def within (enter leave : σ → σ) (f : Emitter σ ι) : Emitter σ ι := fun s =>
  (f (enter s)).map fun p => (p.1, leave p.2)

theorem andThen_eq_some {f g : Emitter σ ι} {s u : σ} {c : List ι} :
    f.andThen g s = some (c, u) ↔
      ∃ a t b, f s = some (a, t) ∧ g t = some (b, u) ∧ c = a ++ b := by
  simp only [andThen, Option.bind_eq_some_iff, Option.map_eq_some_iff, Prod.exists, Prod.mk.injEq]
  constructor
  · rintro ⟨a, t, hf, b, w, hg, rfl, rfl⟩
    exact ⟨a, t, b, hf, hg, rfl⟩
  · rintro ⟨a, t, b, hf, hg, rfl⟩
    exact ⟨a, t, hf, b, u, hg, rfl, rfl⟩

theorem within_eq_some {enter leave : σ → σ} {f : Emitter σ ι} {s u : σ} {c : List ι} :
    f.within enter leave s = some (c, u) ↔ ∃ t, f (enter s) = some (c, t) ∧ u = leave t := by
  simp only [within, Option.map_eq_some_iff, Prod.exists, Prod.mk.injEq]
  constructor
  · rintro ⟨_, t, hf, rfl, rfl⟩
    exact ⟨t, hf, rfl⟩
  · rintro ⟨t, hf, rfl⟩
    exact ⟨c, t, hf, rfl, rfl⟩

/-! ## Where two emitters emit the same code -/

/-- Both end, with the same code. -/
def SameCode (x : Option (List ι × σ)) (y : Option (List ι × τ)) : Prop :=
  ∃ c s t, x = some (c, s) ∧ y = some (c, t)

/-- From the states `e s` and `s`, the emitters leave `e (after s)` and `after s`, emit as many
instructions, and the same if and only if `ok s`. -/
structure Mirrored (e : τ → σ) (after : τ → τ) (ok : τ → Prop) (f : Emitter σ ι)
    (g : Emitter τ ι) : Prop where
  left {s c t} : f (e s) = some (c, t) → t = e (after s)
  right {s c t} : g s = some (c, t) → t = after s
  length {s c d t u} : f (e s) = some (c, t) → g s = some (d, u) → c.length = d.length
  same s : SameCode (f (e s)) (g s) ↔ ok s

namespace Mirrored

variable {e : τ → σ} {after after' : τ → τ} {ok ok' : τ → Prop} {f f' : Emitter σ ι}
  {g g' : Emitter τ ι}

theorem congr (h : Mirrored e after ok f g) (hafter : ∀ s, after s = after' s)
    (hok : ∀ s, ok s ↔ ok' s) : Mirrored e after' ok' f g where
  left hf := by rw [h.left hf, hafter]
  right hg := by rw [h.right hg, hafter]
  length := h.length
  same s := (h.same s).trans (hok s)

theorem tell {a : σ → List ι} {b : τ → List ι} (hlength : ∀ s, (a (e s)).length = (b s).length) :
    Mirrored e id (fun s => a (e s) = b s) (.tell a) (.tell b) where
  left hf := by
    obtain ⟨-, rfl⟩ := Prod.mk.inj (Option.some.inj hf)
    rfl
  right hg := by
    obtain ⟨-, rfl⟩ := Prod.mk.inj (Option.some.inj hg)
    rfl
  length hf hg := by
    obtain ⟨rfl, -⟩ := Prod.mk.inj (Option.some.inj hf)
    obtain ⟨rfl, -⟩ := Prod.mk.inj (Option.some.inj hg)
    exact hlength _
  same s := by
    constructor
    · rintro ⟨c, t, u, hf, hg⟩
      exact (Prod.mk.inj (Option.some.inj hf)).1.trans (Prod.mk.inj (Option.some.inj hg)).1.symm
    · intro heq
      exact ⟨b s, e s, s, congrArg (fun c => some (c, e s)) heq, rfl⟩

/-- What does not look at the state. -/
theorem const (c : List ι) : Mirrored e id (fun _ => True) (.tell fun _ => c) (.tell fun _ => c) :=
  (tell fun _ => rfl).congr (fun _ => rfl) fun _ => by simp

theorem modify {m : σ → σ} {m' : τ → τ} (h : ∀ s, m (e s) = e (m' s)) :
    Mirrored e m' (fun _ => True) (.modify m : Emitter σ ι) (.modify m') where
  left hf := by
    obtain ⟨-, rfl⟩ := Prod.mk.inj (Option.some.inj hf)
    exact h _
  right hg := by
    obtain ⟨-, rfl⟩ := Prod.mk.inj (Option.some.inj hg)
    rfl
  length hf hg := by
    obtain ⟨rfl, -⟩ := Prod.mk.inj (Option.some.inj hf)
    obtain ⟨rfl, -⟩ := Prod.mk.inj (Option.some.inj hg)
    rfl
  same s := iff_of_true ⟨[], m (e s), m' s, rfl, rfl⟩ trivial

theorem andThen (h : Mirrored e after ok f g) (h' : Mirrored e after' ok' f' g') :
    Mirrored e (after' ∘ after) (fun s => ok s ∧ ok' (after s)) (f.andThen f') (g.andThen g') where
  left hf := by
    obtain ⟨_, _, _, hf, hf', -⟩ := andThen_eq_some.mp hf
    obtain rfl := h.left hf
    exact h'.left hf'
  right hg := by
    obtain ⟨_, _, _, hg, hg', -⟩ := andThen_eq_some.mp hg
    obtain rfl := h.right hg
    exact h'.right hg'
  length hf hg := by
    obtain ⟨_, _, _, hfs, hft, rfl⟩ := andThen_eq_some.mp hf
    obtain ⟨_, _, _, hgs, hgt, rfl⟩ := andThen_eq_some.mp hg
    obtain rfl := h.left hfs
    obtain rfl := h.right hgs
    rw [List.length_append, List.length_append, h.length hfs hgs, h'.length hft hgt]
  same s := by
    rw [← h.same, ← h'.same]
    constructor
    · rintro ⟨_, u, u', hf, hg⟩
      obtain ⟨a, t, b, hfs, hft, rfl⟩ := andThen_eq_some.mp hf
      obtain ⟨a', t', b', hgs, hgt, hcode⟩ := andThen_eq_some.mp hg
      obtain ⟨rfl, rfl⟩ := List.append_inj hcode (h.length hfs hgs)
      refine ⟨⟨a, t, t', hfs, hgs⟩, b, u, u', ?_, ?_⟩
      · rw [← h.left hfs, hft]
      · rw [← h.right hgs, hgt]
    · rintro ⟨⟨a, t, t', hf, hg⟩, b, u, u', hf', hg'⟩
      refine ⟨a ++ b, u, u', andThen_eq_some.mpr ⟨a, t, b, hf, ?_, rfl⟩,
        andThen_eq_some.mpr ⟨a, t', b, hg, ?_, rfl⟩⟩
      · rw [h.left hf, hf']
      · rw [h.right hg, hg']

theorem nil : Mirrored e id (fun _ => True) (all [] : Emitter σ ι) (all []) := const []

theorem cons {fs : List (Emitter σ ι)} {gs : List (Emitter τ ι)} (h : Mirrored e after ok f g)
    (h' : Mirrored e after' ok' (all fs) (all gs)) :
    Mirrored e (after' ∘ after) (fun s => ok s ∧ ok' (after s)) (all (f :: fs)) (all (g :: gs)) :=
  h.andThen h'

theorem within {enter leave : σ → σ} {enter' leave' : τ → τ} (h : Mirrored e after ok f g)
    (henter : ∀ s, enter (e s) = e (enter' s))
    (hleave : ∀ s, leave (e (after (enter' s))) = e (after' s))
    (hleave' : ∀ s, leave' (after (enter' s)) = after' s) :
    Mirrored e after' (fun s => ok (enter' s)) (f.within enter leave) (g.within enter' leave') where
  left hf := by
    obtain ⟨t, hft, rfl⟩ := within_eq_some.mp hf
    rw [henter] at hft
    rw [h.left hft, hleave]
  right hg := by
    obtain ⟨t, hgt, rfl⟩ := within_eq_some.mp hg
    rw [h.right hgt, hleave']
  length hf hg := by
    obtain ⟨t, hf, -⟩ := within_eq_some.mp hf
    obtain ⟨t', hg, -⟩ := within_eq_some.mp hg
    rw [henter] at hf
    exact h.length hf hg
  same s := by
    rw [← h.same]
    constructor
    · rintro ⟨c, _, _, hf, hg⟩
      obtain ⟨t, hf, -⟩ := within_eq_some.mp hf
      obtain ⟨t', hg, -⟩ := within_eq_some.mp hg
      exact ⟨c, t, t', henter s ▸ hf, hg⟩
    · rintro ⟨c, t, t', hf, hg⟩
      exact ⟨c, _, _, within_eq_some.mpr ⟨t, (henter s).symm ▸ hf, rfl⟩,
        within_eq_some.mpr ⟨t', hg, rfl⟩⟩

end Mirrored

/-! ## What all code emitted is like -/

/-- From a state with `inv`, each instruction is `good` and the state after has `inv`. -/
def Emits (inv : σ → Prop) (good : ι → Prop) (f : Emitter σ ι) : Prop :=
  ∀ s c t, inv s → f s = some (c, t) → (∀ i ∈ c, good i) ∧ inv t

namespace Emits

variable {inv : σ → Prop} {good : ι → Prop} {f g : Emitter σ ι}

theorem tell {a : σ → List ι} (h : ∀ s, inv s → ∀ i ∈ a s, good i) : Emits inv good (.tell a) := by
  intro s c t hs hf
  obtain ⟨rfl, rfl⟩ := Prod.mk.inj (Option.some.inj hf)
  exact ⟨h s hs, hs⟩

theorem modify {m : σ → σ} (h : ∀ s, inv s → inv (m s)) :
    Emits inv good (.modify m : Emitter σ ι) := by
  intro s c t hs hf
  obtain ⟨rfl, rfl⟩ := Prod.mk.inj (Option.some.inj hf)
  exact ⟨by simp, h s hs⟩

theorem andThen (hf : Emits inv good f) (hg : Emits inv good g) :
    Emits inv good (f.andThen g) := by
  intro s c u hs h
  obtain ⟨a, t, b, hfs, hgt, rfl⟩ := andThen_eq_some.mp h
  obtain ⟨ha, ht⟩ := hf s a t hs hfs
  obtain ⟨hb, hu⟩ := hg t b u ht hgt
  refine ⟨fun i hi => ?_, hu⟩
  rcases List.mem_append.mp hi with hi | hi
  · exact ha i hi
  · exact hb i hi

theorem nil : Emits inv good (all [] : Emitter σ ι) := tell (by simp)

theorem cons {fs : List (Emitter σ ι)} (hf : Emits inv good f) (hfs : Emits inv good (all fs)) :
    Emits inv good (all (f :: fs)) :=
  hf.andThen hfs

theorem within {enter leave : σ → σ} (hf : Emits inv good f) (henter : ∀ s, inv s → inv (enter s))
    (hleave : ∀ s, inv s → inv (leave s)) : Emits inv good (f.within enter leave) := by
  intro s c u hs h
  obtain ⟨t, hft, rfl⟩ := within_eq_some.mp h
  obtain ⟨hc, ht⟩ := hf _ c t (henter s hs) hft
  exact ⟨hc, hleave t ht⟩

end Emits

end Emitter

end Arche.Lib
