import Arche.Lib.Path

/-!
# Structured programs that run on fuel

A `Piece` of a program leads from a state to the way it ends and the state after it. It has no
result where it is stuck or where a loop uses up its fuel.

`Follows R p q`: in related states, whatever `p` results in, `q` results in too, up to `R`. The
rules follow the combinators.
-/

namespace Arche.Lib.Fuelled

abbrev Piece (σ : Type) := σ → Option (Outcome × σ)

variable {σ τ ι : Type}

def skip : Piece σ := fun s => some (.normal, s)

def leave (o : Outcome) : Piece σ := fun s => some (o, s)

/-- A step that can be stuck. -/
def act (f : σ → Option σ) : Piece σ := fun s => (f s).map (.normal, ·)

/-- `q` after the ends of `p` for which `out` has no outcome. -/
def goOn (out : Outcome → Option Outcome) (p q : Piece σ) : Piece σ := fun s =>
  (p s).bind fun r =>
    match out r.1 with
    | none => q r.2
    | some o => some (o, r.2)

def seq (p q : Piece σ) : Piece σ := goOn (fun o => if o = .normal then none else some o) p q

def cond (c : σ → Option Bool) (p q : Piece σ) : Piece σ := fun s =>
  (c s).bind fun b => bif b then p s else q s

/-- How a loop ends with its body. -/
def loopOut : Outcome → Option Outcome
  | .normal | .continued => none
  | .broke => some .normal
  | o => some o

/-- At most as many rounds as there is fuel. -/
def loop (c : σ → Option Bool) (body incr : Piece σ) : Nat → Piece σ
  | 0 => fun _ => none
  | n + 1 => cond c (goOn loopOut body (seq incr (loop c body incr n))) skip

/-- A `break` is meant for a loop around the rows. -/
def rowOut : Outcome → Option Outcome
  | .normal | .continued => none
  | o => some o

/-- `p`, and `f` on every way out of it. -/
def closing (f : σ → σ) (p : Piece σ) : Piece σ := fun s => (p s).map fun r => (r.1, f r.2)

/-- `body` once for each row, between `enter` and `exit`. -/
def rows (enter : ι → σ → σ) (exit : σ → σ) (body : Piece σ) : List ι → Piece σ
  | [] => skip
  | i :: is => goOn rowOut (closing exit fun s => body (enter i s)) (rows enter exit body is)

def Follows (R : σ → τ → Prop) (p : Piece σ) (q : Piece τ) : Prop :=
  ∀ s t, R s t → ∀ o s', p s = some (o, s') → ∃ t', q t = some (o, t') ∧ R s' t'

namespace Follows

variable {R : σ → τ → Prop} {p p' : Piece σ} {q q' : Piece τ}

theorem leave (o : Outcome) :
    Follows R (Fuelled.leave o : Piece σ) (Fuelled.leave o : Piece τ) := by
  rintro s t h o' s' ⟨⟩
  exact ⟨t, rfl, h⟩

theorem skip : Follows R (Fuelled.skip : Piece σ) (Fuelled.skip : Piece τ) := leave .normal

theorem act {f : σ → Option σ} {g : τ → Option τ}
    (h : ∀ s t, R s t → ∀ s', f s = some s' → ∃ t', g t = some t' ∧ R s' t') :
    Follows R (Fuelled.act f) (Fuelled.act g) := by
  intro s t hst o s' hs
  obtain ⟨s₁, hs₁, heq⟩ := Option.map_eq_some_iff.mp hs
  cases heq
  obtain ⟨t', ht', hr⟩ := h s t hst _ hs₁
  exact ⟨t', by rw [Fuelled.act, ht']; rfl, hr⟩

theorem goOn {out : Outcome → Option Outcome} (hp : Follows R p q) (hq : Follows R p' q') :
    Follows R (Fuelled.goOn out p p') (Fuelled.goOn out q q') := by
  intro s t hst o s' hs
  obtain ⟨⟨o₁, s₁⟩, hps, hnext⟩ := Option.bind_eq_some_iff.mp hs
  obtain ⟨t₁, ht₁, hr₁⟩ := hp s t hst o₁ s₁ hps
  rw [Fuelled.goOn, ht₁, Option.bind_some]
  cases hout : out o₁ with
  | none =>
    rw [hout] at hnext
    exact hq s₁ t₁ hr₁ o s' hnext
  | some o' =>
    rw [hout] at hnext
    cases hnext
    exact ⟨t₁, rfl, hr₁⟩

theorem seq (hp : Follows R p q) (hq : Follows R p' q') :
    Follows R (Fuelled.seq p p') (Fuelled.seq q q') := goOn hp hq

theorem cond {c : σ → Option Bool} {d : τ → Option Bool}
    (hc : ∀ s t, R s t → ∀ b, c s = some b → d t = some b) (hp : Follows R p q)
    (hq : Follows R p' q') : Follows R (Fuelled.cond c p p') (Fuelled.cond d q q') := by
  intro s t hst o s' hs
  obtain ⟨b, hb, hnext⟩ := Option.bind_eq_some_iff.mp hs
  rw [Fuelled.cond, hc s t hst b hb, Option.bind_some]
  cases b with
  | true => exact hp s t hst o s' hnext
  | false => exact hq s t hst o s' hnext

theorem loop {c : σ → Option Bool} {d : τ → Option Bool}
    (hc : ∀ s t, R s t → ∀ b, c s = some b → d t = some b) (hbody : Follows R p q)
    (hincr : Follows R p' q') (n : Nat) :
    Follows R (Fuelled.loop c p p' n) (Fuelled.loop d q q' n) := by
  induction n with
  | zero => exact fun s t _ o s' hs => nomatch hs
  | succ n ih => exact cond hc (goOn hbody (seq hincr ih)) skip

theorem closing {f : σ → σ} {g : τ → τ} (hf : ∀ s t, R s t → R (f s) (g t)) (hp : Follows R p q) :
    Follows R (Fuelled.closing f p) (Fuelled.closing g q) := by
  intro s t hst o s' hs
  obtain ⟨r, hr, heq⟩ := Option.map_eq_some_iff.mp hs
  cases heq
  obtain ⟨t₁, ht₁, hr₁⟩ := hp s t hst r.1 r.2 hr
  exact ⟨g t₁, by rw [Fuelled.closing, ht₁]; rfl, hf _ _ hr₁⟩

theorem rows {enter : ι → σ → σ} {exit : σ → σ} {enter' : ι → τ → τ} {exit' : τ → τ}
    (henter : ∀ i s t, R s t → R (enter i s) (enter' i t))
    (hexit : ∀ s t, R s t → R (exit s) (exit' t)) (hbody : Follows R p q) (is : List ι) :
    Follows R (Fuelled.rows enter exit p is) (Fuelled.rows enter' exit' q is) := by
  induction is with
  | nil => exact skip
  | cons i is ih =>
    exact goOn (closing hexit fun s t hst => hbody _ _ (henter i s t hst)) ih

end Follows

end Arche.Lib.Fuelled
