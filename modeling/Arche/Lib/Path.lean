import Mathlib.Logic.Basic

/-!
# Paths of a structured program

A `Path` relates a state, how the piece ends, the state after it and the events
met on the way: it is the meaning of a piece of a program with loops, breaks and
early returns. The combinators are those of a structured language. A run that
never ends is covered by its prefixes: a loop may be cut at its head (`halted`).

`Triple` is partial correctness for paths whose events are all admitted. An event
may carry an assumption about the state (`emit`), and admitting it is making the
assumption. A loop emits an event when it goes on past its body; admitting only
those that left the state as it was is what makes one look at the body enough
(`Triple.loop`). `Triple.loopInv` is the rule with an invariant.

`Meets` says of each way out of a piece what holds there, without assumptions about
events.
-/

namespace Arche.Lib

/-- How a piece of a program ends. -/
inductive Outcome
  | normal
  | broke
  | continued
  | returned
  | halted
deriving DecidableEq, Repr

/-- State before, outcome, state after, events. -/
abbrev Path (σ ε : Type) := σ → Outcome → σ → List ε → Prop

/-- What a loop is over: `tested` has a condition that can end it, `rows` runs once for each of
some rows, so it may run no round, end after any round, and be left by a break meant for a loop
around it. -/
structure LoopForm where
  tested : Bool
  rows : Bool
deriving DecidableEq, Repr

/-- The loop ends before a round. -/
def LoopForm.stops (k : LoopForm) : Prop := k.tested = true ∨ k.rows = true

/-- An outcome of the body that is also the outcome of the loop. -/
def LoopForm.escapes (k : LoopForm) : Outcome → Prop
  | .returned | .halted => True
  | .broke | .continued => k.rows = true
  | .normal => False

namespace Path

variable {σ ε : Type}

/-- A step that always does `f`. -/
def act (f : σ → σ × List ε) : Path σ ε :=
  fun s o s' t => o = .normal ∧ s' = (f s).1 ∧ t = (f s).2

def skip : Path σ ε := act fun s => (s, [])

/-- Records `f s` and changes nothing. -/
def emit (f : σ → ε) : Path σ ε := act fun s => (s, [f s])

/-- Evaluates `q` and goes on with its value. -/
def get {α : Type} (q : σ → α → List ε → Prop) (p : α → Path σ ε) : Path σ ε := fun s o s' t =>
  ∃ a t₁ t₂, q s a t₁ ∧ p a s o s' t₂ ∧ t = t₁ ++ t₂

/-- Leaves the enclosing loop or body with outcome `o`. -/
def leave (o : Outcome) : Path σ ε := fun s o' s' t => o' = o ∧ s' = s ∧ t = []

def seq (p q : Path σ ε) : Path σ ε := fun s o s' t =>
  (o ≠ .normal ∧ p s o s' t) ∨
    ∃ s₁ t₁ t₂, p s .normal s₁ t₁ ∧ q s₁ o s' t₂ ∧ t = t₁ ++ t₂

def choice (p q : Path σ ε) : Path σ ε := fun s o s' t => p s o s' t ∨ q s o s' t

theorem act_run (f : σ → σ × List ε) (s : σ) : act f s .normal (f s).1 (f s).2 := ⟨rfl, rfl, rfl⟩

theorem skip_run (s : σ) : skip (ε := ε) s .normal s [] := ⟨rfl, rfl, rfl⟩

theorem seq_run {p q : Path σ ε} {s s₁ s' : σ} {o : Outcome} {t₁ t₂ : List ε}
    (hp : p s .normal s₁ t₁) (hq : q s₁ o s' t₂) : seq p q s o s' (t₁ ++ t₂) :=
  .inr ⟨s₁, t₁, t₂, hp, hq, rfl⟩

theorem seq_out {p q : Path σ ε} {s s' : σ} {o : Outcome} {t : List ε}
    (ho : o ≠ .normal) (hp : p s o s' t) : seq p q s o s' t :=
  .inl ⟨ho, hp⟩

/-- `p`, and then what it declared is forgotten. -/
def within (cut : σ → σ → σ) (p : Path σ ε) : Path σ ε := fun s o s' t =>
  ∃ s₁, p s o s₁ t ∧ s' = cut s s₁

/-- The rounds of a loop. `cond b` is the test with outcome `b`, `cut s₁ s₂` is `s₂` without what
the round declared, `again a b` is the event of going on in `b` where `a` was before. -/
inductive Loop (k : LoopForm) (cut : σ → σ → σ) (again : σ → σ → ε) (cond : Bool → Path σ ε)
    (body incr : Path σ ε) : Path σ ε
  | cutOff {s : σ} : Loop k cut again cond body incr s .halted s []
  | stop {s s' : σ} {t : List ε} :
      k.stops → cond false s .normal s' t → Loop k cut again cond body incr s .normal s' t
  | broke {s s₁ s₂ : σ} {t₁ t₂ : List ε} :
      cond true s .normal s₁ t₁ → body s₁ .broke s₂ t₂ →
      Loop k cut again cond body incr s .normal (cut s₁ s₂) (t₁ ++ t₂)
  | last {s s₁ s₂ : σ} {o : Outcome} {t₁ t₂ : List ε} :
      k.rows = true → cond true s .normal s₁ t₁ → body s₁ o s₂ t₂ →
      o = .normal ∨ o = .continued →
      Loop k cut again cond body incr s .normal (cut s₁ s₂) (t₁ ++ t₂)
  | escape {s s₁ s₂ : σ} {o : Outcome} {t₁ t₂ : List ε} :
      k.escapes o → cond true s .normal s₁ t₁ → body s₁ o s₂ t₂ →
      Loop k cut again cond body incr s o (cut s₁ s₂) (t₁ ++ t₂)
  | next {s s₁ s₂ s₃ s' : σ} {o o' : Outcome} {t₁ t₂ t₃ t₄ : List ε} :
      cond true s .normal s₁ t₁ → body s₁ o s₂ t₂ → o = .normal ∨ o = .continued →
      incr (cut s₁ s₂) .normal s₃ t₃ → Loop k cut again cond body incr s₃ o' s' t₄ →
      Loop k cut again cond body incr s o' s'
        (t₁ ++ t₂ ++ again s₁ (cut s₁ s₂) :: t₃ ++ again s s₃ :: t₄)

/-- `body` once for each of some rows: a `continue` goes on with the next row, a break is meant for
a loop around it. -/
inductive Rows (body : Path σ ε) : Path σ ε
  | done {s : σ} : Rows body s .normal s []
  | cutOff {s : σ} : Rows body s .halted s []
  | escape {s s' : σ} {o : Outcome} {t : List ε} :
      o ≠ .normal → o ≠ .continued → body s o s' t → Rows body s o s' t
  | next {s s₁ s' : σ} {o o' : Outcome} {t₁ t₂ : List ε} :
      body s o s₁ t₁ → o = .normal ∨ o = .continued → Rows body s₁ o' s' t₂ →
      Rows body s o' s' (t₁ ++ t₂)

/-- `p`, and `f` is recorded on every way out of it. -/
def closing (f : σ → ε) (p : Path σ ε) : Path σ ε := fun s o s' t =>
  ∃ t₁, p s o s' t₁ ∧ t = if o = .halted then t₁ else t₁ ++ [f s']

end Path

/-- What a triple says of the state after: `N` after a normal end, `B` after a break or a
`continue`. A return or a cut says nothing of the state. -/
def Post {σ : Type} (N B : σ → Prop) : Outcome → σ → Prop
  | .normal, s => N s
  | .broke, s | .continued, s => B s
  | .returned, _ | .halted, _ => True

/-- From `P`, every path of `p` with admitted events has only good events and ends in the
postcondition. -/
def Triple {σ ε : Type} (adm good : ε → Prop) (P : σ → Prop) (p : Path σ ε) (N B : σ → Prop) :
    Prop :=
  ∀ s o s' t, P s → p s o s' t → (∀ e ∈ t, adm e) → (∀ e ∈ t, good e) ∧ Post N B o s'

namespace Triple

variable {σ ε : Type} {adm good : ε → Prop} {P Q N N' B B' : σ → Prop} {p q : Path σ ε}

theorem conseq (h : Triple adm good Q p N' B') (hP : ∀ s, P s → Q s) (hN : ∀ s, N' s → N s)
    (hB : ∀ s, B' s → B s) : Triple adm good P p N B := by
  intro s o s' t hs hp ht
  obtain ⟨hg, hpost⟩ := h s o s' t (hP s hs) hp ht
  refine ⟨hg, ?_⟩
  cases o with
  | normal => exact hN s' hpost
  | broke => exact hB s' hpost
  | continued => exact hB s' hpost
  | returned => trivial
  | halted => trivial

/-- A fact that does not depend on the state. -/
theorem assume {φ : Prop} (h : φ → Triple adm good P p N B) :
    Triple adm good (fun s => φ ∧ P s) p N B := by
  rintro s o s' t ⟨hφ, hs⟩ hp ht
  exact h hφ s o s' t hs hp ht

theorem act {f : σ → σ × List ε}
    (h : ∀ s, P s → (∀ e ∈ (f s).2, adm e) → (∀ e ∈ (f s).2, good e) ∧ N (f s).1) :
    Triple adm good P (Path.act f) N B := by
  rintro s o s' t hs ⟨rfl, rfl, rfl⟩ ht
  exact h s hs ht

theorem skip (h : ∀ s, P s → N s) : Triple adm good P Path.skip N B :=
  act fun s hs _ => ⟨fun _ he => absurd he List.not_mem_nil, h s hs⟩

theorem emit {f : σ → ε} (hg : ∀ s, P s → good (f s)) (h : ∀ s, P s → adm (f s) → N s) :
    Triple adm good P (Path.emit f) N B := by
  refine act fun s hs ht => ⟨fun e he => ?_, h s hs (ht _ List.mem_cons_self)⟩
  cases List.mem_singleton.mp he
  exact hg s hs

/-- What is known of the state after the evaluation of `q` to `a`. -/
theorem get {α : Type} {q : σ → α → List ε → Prop} {f : α → Path σ ε} {Q : α → σ → Prop}
    (hq : ∀ s a t, P s → q s a t → (∀ e ∈ t, adm e) → (∀ e ∈ t, good e) ∧ Q a s)
    (hf : ∀ a, Triple adm good (Q a) (f a) N B) : Triple adm good P (Path.get q f) N B := by
  rintro s o s' t hs ⟨a, t₁, t₂, h₁, h₂, rfl⟩ ht
  obtain ⟨hg₁, hQ⟩ := hq s a t₁ hs h₁ (fun e he => ht e (List.mem_append.mpr (.inl he)))
  obtain ⟨hg₂, hpost⟩ := hf a s o s' t₂ hQ h₂ (fun e he => ht e (List.mem_append.mpr (.inr he)))
  exact ⟨fun e he => (List.mem_append.mp he).elim (hg₁ e) (hg₂ e), hpost⟩

theorem leave {o : Outcome} (h : ∀ s, P s → Post N B o s) :
    Triple adm good P (Path.leave o) N B := by
  rintro s o' s' t hs ⟨rfl, rfl, rfl⟩ _
  exact ⟨fun _ he => absurd he List.not_mem_nil, h s' hs⟩

theorem seq (hp : Triple adm good P p Q B) (hq : Triple adm good Q q N B) :
    Triple adm good P (Path.seq p q) N B := by
  rintro s o s' t hs (⟨ho, h⟩ | ⟨s₁, t₁, t₂, h₁, h₂, rfl⟩) ht
  · obtain ⟨hg, hpost⟩ := hp s o s' t hs h ht
    refine ⟨hg, ?_⟩
    cases o with
    | normal => exact absurd rfl ho
    | broke => exact hpost
    | continued => exact hpost
    | returned => trivial
    | halted => trivial
  · obtain ⟨hg₁, hq₁⟩ := hp s .normal s₁ t₁ hs h₁
      (fun e he => ht e (List.mem_append.mpr (.inl he)))
    obtain ⟨hg₂, hpost⟩ := hq s₁ o s' t₂ hq₁ h₂
      (fun e he => ht e (List.mem_append.mpr (.inr he)))
    exact ⟨fun e he => (List.mem_append.mp he).elim (hg₁ e) (hg₂ e), hpost⟩

theorem choice (hp : Triple adm good P p N B) (hq : Triple adm good P q N B) :
    Triple adm good P (Path.choice p q) N B := by
  rintro s o s' t hs (h | h) ht
  · exact hp s o s' t hs h ht
  · exact hq s o s' t hs h ht

theorem within {cut : σ → σ → σ} (hp : Triple adm good P p N' B')
    (hN : ∀ s s₁, P s → N' s₁ → N (cut s s₁)) (hB : ∀ s s₁, P s → B' s₁ → B (cut s s₁)) :
    Triple adm good P (Path.within cut p) N B := by
  rintro s o s' t hs ⟨s₁, h, rfl⟩ ht
  obtain ⟨hg, hpost⟩ := hp s o s₁ t hs h ht
  refine ⟨hg, ?_⟩
  cases o with
  | normal => exact hN s s₁ hs hpost
  | broke => exact hB s s₁ hs hpost
  | continued => exact hB s s₁ hs hpost
  | returned => trivial
  | halted => trivial

variable {C Nb Bb Ni Bi : σ → Prop} {cond : Bool → Path σ ε} {body incr : Path σ ε} {k : LoopForm}
  {cut : σ → σ → σ} {again : σ → σ → ε}

/-- The loop rule. `C` holds where the body begins. No invariant of the body is asked for: an
admitted `again a b` says that the loop goes on in the very state it was in. -/
theorem loop (hagain : ∀ a b, adm (again a b) → b = a ∧ good (again a b))
    (hcond : ∀ b, Triple adm good P (cond b) C B) (hbody : Triple adm good C body Nb Bb)
    (hincr : Triple adm good C incr Ni Bi) (hstop : k.stops → ∀ s, C s → N s)
    (hbroke : ∀ s s', C s → Bb s' → N (cut s s'))
    (hlast : k.rows = true → ∀ s s', C s → Nb s' → N (cut s s'))
    (hescape : k.rows = true → ∀ s s', C s → Bb s' → B (cut s s')) :
    Triple adm good P (Path.Loop k cut again cond body incr) N B := by
  intro s o s' t hs h
  -- the state at the head is the same in every round, so the induction is over the rounds alone
  induction h with
  | cutOff => exact fun _ => ⟨fun _ he => absurd he List.not_mem_nil, trivial⟩
  | stop hk h =>
    intro ht
    obtain ⟨hg, hC⟩ := hcond _ _ _ _ _ hs h ht
    exact ⟨hg, hstop hk _ hC⟩
  | broke h₁ h₂ =>
    intro ht
    obtain ⟨hg₁, hC⟩ := hcond _ _ _ _ _ hs h₁ (fun e he => ht e (List.mem_append.mpr (.inl he)))
    obtain ⟨hg₂, hB⟩ := hbody _ _ _ _ hC h₂ (fun e he => ht e (List.mem_append.mpr (.inr he)))
    exact ⟨fun e he => (List.mem_append.mp he).elim (hg₁ e) (hg₂ e), hbroke _ _ hC hB⟩
  | last hk h₁ h₂ ho =>
    intro ht
    obtain ⟨hg₁, hC⟩ := hcond _ _ _ _ _ hs h₁ (fun e he => ht e (List.mem_append.mpr (.inl he)))
    obtain ⟨hg₂, hpost⟩ := hbody _ _ _ _ hC h₂ (fun e he => ht e (List.mem_append.mpr (.inr he)))
    refine ⟨fun e he => (List.mem_append.mp he).elim (hg₁ e) (hg₂ e), ?_⟩
    rcases ho with rfl | rfl
    · exact hlast hk _ _ hC hpost
    · exact hbroke _ _ hC hpost
  | @escape s s₁ s₂ o t₁ t₂ hk h₁ h₂ =>
    intro ht
    obtain ⟨hg₁, hC⟩ := hcond _ _ _ _ _ hs h₁ (fun e he => ht e (List.mem_append.mpr (.inl he)))
    obtain ⟨hg₂, hpost⟩ := hbody _ _ _ _ hC h₂ (fun e he => ht e (List.mem_append.mpr (.inr he)))
    refine ⟨fun e he => (List.mem_append.mp he).elim (hg₁ e) (hg₂ e), ?_⟩
    cases o with
    | normal => exact absurd hk id
    | broke => exact hescape hk _ _ hC hpost
    | continued => exact hescape hk _ _ hC hpost
    | returned => trivial
    | halted => trivial
  | @next s s₁ s₂ s₃ s' o o' t₁ t₂ t₃ t₄ h₁ h₂ _ h₃ _ ih =>
    intro ht
    simp only [List.append_assoc, List.cons_append, List.mem_append, List.mem_cons] at ht
    obtain ⟨hg₁, hC⟩ := hcond _ _ _ _ _ hs h₁ (fun e he => ht e (.inl he))
    obtain ⟨hg₂, _⟩ := hbody _ _ _ _ hC h₂ (fun e he => ht e (.inr (.inl he)))
    obtain ⟨hback, hgb⟩ := hagain _ _ (ht _ (.inr (.inr (.inl rfl))))
    rw [hback] at h₃
    obtain ⟨hg₃, _⟩ := hincr _ _ _ _ hC h₃ (fun e he => ht e (.inr (.inr (.inr (.inl he)))))
    obtain ⟨hhead, hgh⟩ := hagain _ _ (ht _ (.inr (.inr (.inr (.inr (.inl rfl))))))
    rw [hhead] at ih
    obtain ⟨hg₄, hpost⟩ := ih hs (fun e he => ht e (.inr (.inr (.inr (.inr (.inr he))))))
    refine ⟨fun e he => ?_, hpost⟩
    simp only [List.append_assoc, List.cons_append, List.mem_append, List.mem_cons] at he
    rcases he with he | he | rfl | he | rfl | he
    · exact hg₁ e he
    · exact hg₂ e he
    · exact hgb
    · exact hg₃ e he
    · exact hgh
    · exact hg₄ e he

/-- The loop rule with the invariant `P` at the head: `C` holds where the body begins, `D` where
the loop ends, `Q` where the increment begins. -/
theorem loopInv {D Q : σ → Prop} (hagain : ∀ a b, good (again a b))
    (hgo : Triple adm good P (cond true) C B) (hdone : Triple adm good P (cond false) D B)
    (hbody : Triple adm good C body Nb Bb) (hincr : Triple adm good Q incr P B)
    (hround : ∀ s s', C s → Nb s' ∨ Bb s' → Q (cut s s'))
    (hD : ∀ s, D s → N s) (hQ : ∀ s, Q s → N s) (hB : ∀ s, Q s → B s) :
    Triple adm good P (Path.Loop k cut again cond body incr) N B := by
  intro s o s' t hs h
  induction h with
  | cutOff => exact fun _ => ⟨fun _ he => absurd he List.not_mem_nil, trivial⟩
  | stop hk h =>
    intro ht
    obtain ⟨hg, hd⟩ := hdone _ _ _ _ hs h ht
    exact ⟨hg, hD _ hd⟩
  | broke h₁ h₂ =>
    intro ht
    obtain ⟨hg₁, hC⟩ := hgo _ _ _ _ hs h₁ (fun e he => ht e (List.mem_append.mpr (.inl he)))
    obtain ⟨hg₂, hb⟩ := hbody _ _ _ _ hC h₂ (fun e he => ht e (List.mem_append.mpr (.inr he)))
    exact ⟨fun e he => (List.mem_append.mp he).elim (hg₁ e) (hg₂ e),
      hQ _ (hround _ _ hC (.inr hb))⟩
  | last hk h₁ h₂ ho =>
    intro ht
    obtain ⟨hg₁, hC⟩ := hgo _ _ _ _ hs h₁ (fun e he => ht e (List.mem_append.mpr (.inl he)))
    obtain ⟨hg₂, hpost⟩ := hbody _ _ _ _ hC h₂ (fun e he => ht e (List.mem_append.mpr (.inr he)))
    refine ⟨fun e he => (List.mem_append.mp he).elim (hg₁ e) (hg₂ e), ?_⟩
    rcases ho with rfl | rfl
    · exact hQ _ (hround _ _ hC (.inl hpost))
    · exact hQ _ (hround _ _ hC (.inr hpost))
  | @escape s s₁ s₂ o t₁ t₂ hk h₁ h₂ =>
    intro ht
    obtain ⟨hg₁, hC⟩ := hgo _ _ _ _ hs h₁ (fun e he => ht e (List.mem_append.mpr (.inl he)))
    obtain ⟨hg₂, hpost⟩ := hbody _ _ _ _ hC h₂ (fun e he => ht e (List.mem_append.mpr (.inr he)))
    refine ⟨fun e he => (List.mem_append.mp he).elim (hg₁ e) (hg₂ e), ?_⟩
    cases o with
    | normal => exact absurd hk id
    | broke => exact hB _ (hround _ _ hC (.inr hpost))
    | continued => exact hB _ (hround _ _ hC (.inr hpost))
    | returned => trivial
    | halted => trivial
  | @next s s₁ s₂ s₃ s' o o' t₁ t₂ t₃ t₄ h₁ h₂ ho h₃ _ ih =>
    intro ht
    simp only [List.append_assoc, List.cons_append, List.mem_append, List.mem_cons] at ht
    obtain ⟨hg₁, hC⟩ := hgo _ _ _ _ hs h₁ (fun e he => ht e (.inl he))
    obtain ⟨hg₂, hpost⟩ := hbody _ _ _ _ hC h₂ (fun e he => ht e (.inr (.inl he)))
    have hq : Q (cut s₁ s₂) := by
      rcases ho with rfl | rfl
      · exact hround _ _ hC (.inl hpost)
      · exact hround _ _ hC (.inr hpost)
    obtain ⟨hg₃, hP⟩ := hincr _ _ _ _ hq h₃ (fun e he => ht e (.inr (.inr (.inr (.inl he)))))
    obtain ⟨hg₄, hlast⟩ := ih hP (fun e he => ht e (.inr (.inr (.inr (.inr (.inr he))))))
    refine ⟨fun e he => ?_, hlast⟩
    simp only [List.append_assoc, List.cons_append, List.mem_append, List.mem_cons] at he
    rcases he with he | he | rfl | he | rfl | he
    · exact hg₁ e he
    · exact hg₂ e he
    · exact hagain _ _
    · exact hg₃ e he
    · exact hagain _ _
    · exact hg₄ e he

end Triple

/-- `N` after a normal end, `E o` after the end `o`. -/
def Ends {σ : Type} (N : σ → Prop) (E : Outcome → σ → Prop) : Outcome → σ → Prop
  | .normal, s => N s
  | o, s => E o s

/-- From `P`, every path of `p` has only good events and ends in `N`, or leaves it in `E`. -/
def Meets {σ ε : Type} (good : ε → Prop) (P : σ → Prop) (p : Path σ ε) (N : σ → Prop)
    (E : Outcome → σ → Prop) : Prop :=
  ∀ s o s' t, P s → p s o s' t → (∀ e ∈ t, good e) ∧ Ends N E o s'

namespace Meets

variable {σ ε : Type} {good : ε → Prop} {P Q I N N' : σ → Prop} {E E' : Outcome → σ → Prop}
  {p q : Path σ ε}

theorem conseq (h : Meets good Q p N' E') (hP : ∀ s, P s → Q s) (hN : ∀ s, N' s → N s)
    (hE : ∀ o s, E' o s → E o s) : Meets good P p N E := by
  intro s o s' t hs hp
  obtain ⟨hg, hend⟩ := h s o s' t (hP s hs) hp
  refine ⟨hg, ?_⟩
  cases o with
  | normal => exact hN s' hend
  | broke => exact hE _ s' hend
  | continued => exact hE _ s' hend
  | returned => exact hE _ s' hend
  | halted => exact hE _ s' hend

theorem act {f : σ → σ × List ε} (h : ∀ s, P s → (∀ e ∈ (f s).2, good e) ∧ N (f s).1) :
    Meets good P (Path.act f) N E := by
  rintro s o s' t hs ⟨rfl, rfl, rfl⟩
  exact h s hs

theorem skip (h : ∀ s, P s → N s) : Meets good P Path.skip N E :=
  act fun s hs => ⟨fun _ he => absurd he List.not_mem_nil, h s hs⟩

theorem leave {o : Outcome} (h : ∀ s, P s → Ends N E o s) :
    Meets good P (Path.leave o) N E := by
  rintro s o' s' t hs ⟨rfl, rfl, rfl⟩
  exact ⟨fun _ he => absurd he List.not_mem_nil, h s' hs⟩

theorem seq (hp : Meets good P p Q E) (hq : Meets good Q q N E) :
    Meets good P (Path.seq p q) N E := by
  rintro s o s' t hs (⟨ho, h⟩ | ⟨s₁, t₁, t₂, h₁, h₂, rfl⟩)
  · obtain ⟨hg, hend⟩ := hp s o s' t hs h
    refine ⟨hg, ?_⟩
    cases o with
    | normal => exact absurd rfl ho
    | broke => exact hend
    | continued => exact hend
    | returned => exact hend
    | halted => exact hend
  · obtain ⟨hg₁, hQ⟩ := hp s .normal s₁ t₁ hs h₁
    obtain ⟨hg₂, hend⟩ := hq s₁ o s' t₂ hQ h₂
    exact ⟨fun e he => (List.mem_append.mp he).elim (hg₁ e) (hg₂ e), hend⟩

theorem choice (hp : Meets good P p N E) (hq : Meets good P q N E) :
    Meets good P (Path.choice p q) N E := by
  rintro s o s' t hs (h | h)
  · exact hp s o s' t hs h
  · exact hq s o s' t hs h

/-- What is recorded on the way out is good on every way out. -/
theorem closing {f : σ → ε} (hp : Meets good P p N E)
    (hf : ∀ o s, o ≠ .halted → Ends N E o s → good (f s)) :
    Meets good P (Path.closing f p) N E := by
  rintro s o s' t hs ⟨t₁, h, rfl⟩
  obtain ⟨hg, hend⟩ := hp s o s' t₁ hs h
  refine ⟨?_, hend⟩
  split
  · exact hg
  · next ho =>
    intro e he
    rcases List.mem_append.mp he with he | he
    · exact hg e he
    · cases List.mem_singleton.mp he
      exact hf o s' ho hend

/-- The loop rule with one invariant for the head, the test, the body and the increment. -/
theorem loop {tested : Bool} {again : σ → σ → ε} {cond : Bool → Path σ ε} {body incr : Path σ ε}
    (hagain : ∀ a b, good (again a b)) (hcond : ∀ b, Meets good I (cond b) I E)
    (hbody : Meets good I body I E') (hincr : Meets good I incr I E)
    (hbroke : ∀ s, E' .broke s → I s) (hcont : ∀ s, E' .continued s → I s)
    (hret : ∀ s, E' .returned s → E .returned s) (hhalt : ∀ s, E .halted s) :
    Meets good I (Path.Loop ⟨tested, false⟩ (fun _ s => s) again cond body incr) I E := by
  intro s o s' t hs h
  induction h with
  | cutOff => exact ⟨fun _ he => absurd he List.not_mem_nil, hhalt _⟩
  | stop _ h => exact hcond _ _ _ _ _ hs h
  | broke h₁ h₂ =>
    obtain ⟨hg₁, hI⟩ := hcond _ _ _ _ _ hs h₁
    obtain ⟨hg₂, hend⟩ := hbody _ _ _ _ hI h₂
    exact ⟨fun e he => (List.mem_append.mp he).elim (hg₁ e) (hg₂ e), hbroke _ hend⟩
  | last hk => exact absurd hk Bool.false_ne_true
  | @escape s s₁ s₂ o t₁ t₂ hk h₁ h₂ =>
    obtain ⟨hg₁, hI⟩ := hcond _ _ _ _ _ hs h₁
    obtain ⟨hg₂, hend⟩ := hbody _ _ _ _ hI h₂
    refine ⟨fun e he => (List.mem_append.mp he).elim (hg₁ e) (hg₂ e), ?_⟩
    cases o with
    | normal => exact absurd hk id
    | broke => exact absurd hk Bool.false_ne_true
    | continued => exact absurd hk Bool.false_ne_true
    | returned => exact hret _ hend
    | halted => exact hhalt _
  | @next s s₁ s₂ s₃ s' o o' t₁ t₂ t₃ t₄ h₁ h₂ ho h₃ _ ih =>
    obtain ⟨hg₁, hI⟩ := hcond _ _ _ _ _ hs h₁
    obtain ⟨hg₂, hend⟩ := hbody _ _ _ _ hI h₂
    have hround : I s₂ := by
      rcases ho with rfl | rfl
      · exact hend
      · exact hcont _ hend
    obtain ⟨hg₃, hI₃⟩ := hincr _ _ _ _ hround h₃
    obtain ⟨hg₄, hlast⟩ := ih hI₃
    refine ⟨fun e he => ?_, hlast⟩
    simp only [List.append_assoc, List.cons_append, List.mem_append, List.mem_cons] at he
    rcases he with he | he | rfl | he | rfl | he
    · exact hg₁ e he
    · exact hg₂ e he
    · exact hagain _ _
    · exact hg₃ e he
    · exact hagain _ _
    · exact hg₄ e he

theorem rows {body : Path σ ε} (hbody : Meets good I body I E')
    (hbroke : ∀ s, E' .broke s → E .broke s) (hcont : ∀ s, E' .continued s → I s)
    (hret : ∀ s, E' .returned s → E .returned s) (hhalt : ∀ s, E .halted s) :
    Meets good I (Path.Rows body) I E := by
  intro s o s' t hs h
  induction h with
  | done => exact ⟨fun _ he => absurd he List.not_mem_nil, hs⟩
  | cutOff => exact ⟨fun _ he => absurd he List.not_mem_nil, hhalt _⟩
  | @escape s s' o t hn hc h =>
    obtain ⟨hg, hend⟩ := hbody _ _ _ _ hs h
    refine ⟨hg, ?_⟩
    cases o with
    | normal => exact absurd rfl hn
    | broke => exact hbroke _ hend
    | continued => exact absurd rfl hc
    | returned => exact hret _ hend
    | halted => exact hhalt _
  | @next s s₁ s' o o' t₁ t₂ h₁ ho _ ih =>
    obtain ⟨hg₁, hend⟩ := hbody _ _ _ _ hs h₁
    have hround : I s₁ := by
      rcases ho with rfl | rfl
      · exact hend
      · exact hcont _ hend
    obtain ⟨hg₂, hlast⟩ := ih hround
    exact ⟨fun e he => (List.mem_append.mp he).elim (hg₁ e) (hg₂ e), hlast⟩

end Meets

end Arche.Lib
