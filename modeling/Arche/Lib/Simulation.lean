import Arche.Lib.Path

/-!
# Simulation between paths

`Simulates` relates the paths of two structured programs over different states. A
path of the first one is matched by one of the second with the same outcome and the
events `keep` leaves, and the states go on being related. As in `Triple`, only paths
whose events are all admitted are looked at.

The rules follow the combinators. `before` is for a step that only the first program
has.
-/

namespace Arche.Lib

variable {σ τ ε δ : Type}

namespace Path

/-- `body` any number of times, or until it is left. -/
inductive Repeat (body : Path σ ε) : Path σ ε
  | done {s : σ} : Repeat body s .normal s []
  | cutOff {s : σ} : Repeat body s .halted s []
  | escape {s s' : σ} {o : Outcome} {t : List ε} :
      o ≠ .normal → body s o s' t → Repeat body s o s' t
  | next {s s₁ s' : σ} {o : Outcome} {t₁ t₂ : List ε} :
      body s .normal s₁ t₁ → Repeat body s₁ o s' t₂ → Repeat body s o s' (t₁ ++ t₂)

theorem seq_skip {p : Path σ ε} {s s' : σ} {o : Outcome} {t : List ε} (h : p s o s' t) :
    seq p skip s o s' t := by
  by_cases ho : o = .normal
  · subst ho
    rw [← List.append_nil t]
    exact seq_run h (skip_run s')
  · exact seq_out ho h

theorem of_seq_skip {p : Path σ ε} {s s' : σ} {o : Outcome} {t : List ε}
    (h : seq p skip s o s' t) : p s o s' t := by
  rcases h with ⟨-, h⟩ | ⟨s₁, t₁, t₂, h, ⟨rfl, rfl, rfl⟩, rfl⟩
  · exact h
  · rwa [List.append_nil]

theorem skip_seq {p : Path σ ε} {s s' : σ} {o : Outcome} {t : List ε} (h : p s o s' t) :
    seq skip p s o s' t :=
  seq_run (skip_run s) h

theorem seq_assoc {p q r : Path σ ε} {s s' : σ} {o : Outcome} {t : List ε}
    (h : seq p (seq q r) s o s' t) : seq (seq p q) r s o s' t := by
  rcases h with ⟨ho, hp⟩ | ⟨s₁, t₁, t₂, hp, ⟨ho, hq⟩ | ⟨s₂, t₃, t₄, hq, hr, rfl⟩, rfl⟩
  · exact seq_out ho (seq_out ho hp)
  · exact seq_out ho (seq_run hp hq)
  · rw [← List.append_assoc]
    exact seq_run (seq_run hp hq) hr

theorem seq_mono {p p' q q' : Path σ ε} (hp : ∀ s o s' t, p s o s' t → p' s o s' t)
    (hq : ∀ s o s' t, q s o s' t → q' s o s' t) {s s' : σ} {o : Outcome} {t : List ε}
    (h : seq p q s o s' t) : seq p' q' s o s' t := by
  rcases h with ⟨ho, h⟩ | ⟨s₁, t₁, t₂, h₁, h₂, rfl⟩
  · exact seq_out ho (hp _ _ _ _ h)
  · exact seq_run (hp _ _ _ _ h₁) (hq _ _ _ _ h₂)

end Path

/-- From states in `R`, every path of `p` with admitted events is matched by a path of `q`; the states
after it are in `N` if it ends normally and in `E` if not. -/
def Simulates (adm : ε → Prop) (keep : ε → Option δ) (R : σ → τ → Prop) (p : Path σ ε)
    (q : Path τ δ) (N E : σ → τ → Prop) : Prop :=
  ∀ s m o s' t, R s m → p s o s' t → (∀ e ∈ t, adm e) →
    ∃ m', q m o m' (t.filterMap keep) ∧ (o = .normal → N s' m') ∧ (o ≠ .normal → E s' m')

namespace Simulates

variable {adm : ε → Prop} {keep : ε → Option δ} {R S Q N N' E E' : σ → τ → Prop} {p p' : Path σ ε}
  {q q' : Path τ δ}

theorem conseq (h : Simulates adm keep S p q N' E') (hR : ∀ s m, R s m → S s m)
    (hN : ∀ s m, N' s m → N s m) (hE : ∀ s m, E' s m → E s m) : Simulates adm keep R p q N E := by
  intro s m o s' t hs hp ht
  obtain ⟨m', hq, hn, he⟩ := h s m o s' t (hR s m hs) hp ht
  exact ⟨m', hq, fun ho => hN _ _ (hn ho), fun ho => hE _ _ (he ho)⟩

theorem mono (h : Simulates adm keep R p q N E) (hp : ∀ s o s' t, p' s o s' t → p s o s' t) :
    Simulates adm keep R p' q N E :=
  fun s m o s' t hs h' ht => h s m o s' t hs (hp s o s' t h') ht

theorem act {f : σ → σ × List ε} {g : τ → τ × List δ}
    (h : ∀ s m, R s m → (∀ e ∈ (f s).2, adm e) →
      (f s).2.filterMap keep = (g m).2 ∧ N (f s).1 (g m).1) :
    Simulates adm keep R (Path.act f) (Path.act g) N E := by
  rintro s m o s' t hs ⟨rfl, rfl, rfl⟩ ht
  obtain ⟨hkeep, hN⟩ := h s m hs ht
  exact ⟨(g m).1, ⟨rfl, rfl, hkeep⟩, fun _ => hN, fun ho => absurd rfl ho⟩

/-- A step of the first program that the second does not have. -/
theorem silent {f : σ → σ × List ε}
    (h : ∀ s m, R s m → (∀ e ∈ (f s).2, adm e) → (f s).2.filterMap keep = [] ∧ N (f s).1 m) :
    Simulates adm keep R (Path.act f) Path.skip N E :=
  act h

theorem skip (h : ∀ s m, R s m → N s m) : Simulates adm keep R Path.skip Path.skip N E :=
  act fun s m hs _ => ⟨rfl, h s m hs⟩

theorem leave {o : Outcome} (ho : o ≠ .normal) (h : ∀ s m, R s m → E s m) :
    Simulates adm keep R (Path.leave o) (Path.leave o) N E := by
  rintro s m o' s' t hs ⟨rfl, rfl, rfl⟩ _
  exact ⟨m, ⟨rfl, rfl, rfl⟩, fun hn => absurd hn ho, fun _ => h _ _ hs⟩

theorem seq (hp : Simulates adm keep R p q Q E) (hq : Simulates adm keep Q p' q' N E) :
    Simulates adm keep R (Path.seq p p') (Path.seq q q') N E := by
  rintro s m o s' t hs (⟨ho, h⟩ | ⟨s₁, t₁, t₂, h₁, h₂, rfl⟩) ht
  · obtain ⟨m', hm, hn, he⟩ := hp s m o s' t hs h ht
    exact ⟨m', Path.seq_out ho hm, fun hno => absurd hno ho, he⟩
  · obtain ⟨m₁, hm₁, hn₁, -⟩ := hp s m .normal s₁ t₁ hs h₁
      (fun e he => ht e (List.mem_append.mpr (.inl he)))
    obtain ⟨m', hm', hn, he⟩ := hq s₁ m₁ o s' t₂ (hn₁ rfl) h₂
      (fun e he => ht e (List.mem_append.mpr (.inr he)))
    rw [List.filterMap_append]
    exact ⟨m', Path.seq_run hm₁ hm', hn, he⟩

/-- What only the first program does before it goes on as the second. -/
theorem before (hp : Simulates adm keep R p Path.skip Q E) (hq : Simulates adm keep Q p' q N E) :
    Simulates adm keep R (Path.seq p p') q N E := by
  rintro s m o s' t hs (⟨ho, h⟩ | ⟨s₁, t₁, t₂, h₁, h₂, rfl⟩) ht
  · obtain ⟨m', ⟨hno, -, -⟩, -⟩ := hp s m o s' t hs h ht
    exact absurd hno ho
  · obtain ⟨m₁, ⟨-, hm, hempty⟩, hn₁, -⟩ := hp s m .normal s₁ t₁ hs h₁
      (fun e he => ht e (List.mem_append.mpr (.inl he)))
    dsimp only at hm hempty
    subst hm
    obtain ⟨m', hm', hn, he⟩ := hq s₁ m₁ o s' t₂ (hn₁ rfl) h₂
      (fun e he => ht e (List.mem_append.mpr (.inr he)))
    rw [List.filterMap_append, hempty, List.nil_append]
    exact ⟨m', hm', hn, he⟩

theorem choice (hp : Simulates adm keep R p q N E) (hp' : Simulates adm keep R p' q' N E) :
    Simulates adm keep R (Path.choice p p') (Path.choice q q') N E := by
  rintro s m o s' t hs (h | h) ht
  · obtain ⟨m', hm, hend⟩ := hp s m o s' t hs h ht
    exact ⟨m', .inl hm, hend⟩
  · obtain ⟨m', hm, hend⟩ := hp' s m o s' t hs h ht
    exact ⟨m', .inr hm, hend⟩

/-- Rounds of a body that keeps `R`. -/
theorem rounds (hbody : Simulates adm keep R p q R E) (hE : ∀ s m, R s m → E s m) :
    Simulates adm keep R (Path.Repeat p) (Path.Repeat q) R E := by
  intro s m o s' t hs h
  induction h generalizing m with
  | done => exact fun _ => ⟨m, .done, fun _ => hs, fun ho => absurd rfl ho⟩
  | cutOff => exact fun _ => ⟨m, .cutOff, nofun, fun _ => hE _ _ hs⟩
  | escape hn h =>
    intro ht
    obtain ⟨m', hm, -, he⟩ := hbody _ _ _ _ _ hs h ht
    exact ⟨m', .escape hn hm, fun hno => absurd hno hn, he⟩
  | next h₁ _ ih =>
    intro ht
    obtain ⟨m₁, hm₁, hn₁, -⟩ := hbody _ _ _ _ _ hs h₁
      (fun e he => ht e (List.mem_append.mpr (.inl he)))
    obtain ⟨m', hm', hend⟩ := ih m₁ (hn₁ rfl) (fun e he => ht e (List.mem_append.mpr (.inr he)))
    rw [List.filterMap_append]
    exact ⟨m', .next hm₁ hm', hend⟩

end Simulates

end Arche.Lib
