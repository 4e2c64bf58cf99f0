import Arche.Syntax.ParseDecl

/-!
# Every parser loop ends

`Total n p`: on a state with fewer than `n` unread bytes `p` returns. `StrictOn
p g`: a return that `g` accepts has consumed something. Both are classes, so
that the instances below follow the structure of an action: a loop returns if
its rounds return and each round that goes on has consumed, and a call in the
circle is only ever made with fewer unread bytes than its caller had.
-/

namespace Arche.Syntax

open P Arche.Syntax.Parser MoveLemmas

variable {α β σ : Type} {n : Nat}

/-- On fewer than `n` unread bytes, `p` returns. -/
class Total (n : Nat) (p : P α) : Prop where
  out : ∀ m s, s.unread < n → ∃ o t, p.run m s = some (o, t)

/-- A return that `g` accepts has consumed something. -/
class StrictOn (p : P α) (g : α → Bool) : Prop where
  out : ∀ {m s a t}, p.run m s = some (some a, t) → g a = true → t.unread < s.unread

abbrev Strict (p : P α) : Prop := StrictOn p fun _ => true

/-- `StrictOn` for the states that have a token in hand. -/
class MovesOn (p : P α) (g : α → Bool) : Prop where
  out : ∀ {m s a t}, s.current.kind ≠ .eof → p.run m s = some (some a, t) → g a = true →
    t.unread < s.unread

abbrev Moves (p : P α) : Prop := MovesOn p fun _ => true

theorem bind_run (p : P α) (f : α → P β) (m : Mode) (s : Parser) :
    (p >>= f).run m s =
      match p.run m s with
      | none => none
      | some (none, t) => some (none, t)
      | some (some a, t) => (f a).run m t := rfl

theorem bind_some {p : P α} {f : α → P β} {m : Mode} {s t : Parser} {b : β}
    (h : (p >>= f).run m s = some (some b, t)) :
    ∃ a u, p.run m s = some (some a, u) ∧ (f a).run m u = some (some b, t) := by
  rw [bind_run] at h
  split at h
  · cases h
  · cases h
  · next a u hu => exact ⟨a, u, hu, h⟩

/-! ## Straight-line actions -/

theorem Total.mono {p : P α} (h : Total (n + 1) p) : Total n p :=
  ⟨fun m s hs => h.out m s (by omega)⟩

instance (f : Parser → α × Parser) (h : ∀ s, Reach s (f s).2) : Total n (lift f h) :=
  ⟨fun _ _ _ => ⟨_, _, rfl⟩⟩

instance (a : α) : Total n (pure a : P α) := ⟨fun _ _ _ => ⟨_, _, rfl⟩⟩

instance (f : Parser → α) : Total n (ask f) := ⟨fun _ _ _ => ⟨_, _, rfl⟩⟩

instance (k : TokenKind) : Total n (check k) := ⟨fun _ _ _ => ⟨_, _, rfl⟩⟩

instance (f : TokenKind → Bool) (hf : f .eof = false) : Total n (matchIf f hf) :=
  ⟨fun _ _ _ => ⟨_, _, rfl⟩⟩

instance (k : TokenKind) (hk : (TokenKind.eof == k) = false) : Total n (matchTok k hk) :=
  ⟨fun _ _ _ => ⟨_, _, rfl⟩⟩

instance (message : String) : Total n (report message) := ⟨fun _ _ _ => ⟨_, _, rfl⟩⟩

instance (message : String) : Total n (fail message : P α) := ⟨fun _ _ _ => ⟨_, _, rfl⟩⟩

instance : Total n checkpoint := ⟨fun _ _ _ => ⟨_, _, rfl⟩⟩

instance (cp : Nat) (kind : SyntaxNodeKind) : Total n (wrap cp kind) :=
  ⟨fun _ _ _ => ⟨_, _, rfl⟩⟩

instance (b : Bool) : Total n (setInForeign b) := ⟨fun _ _ _ => ⟨_, _, rfl⟩⟩

instance (c : Prop) [Decidable c] (p q : P α) [Total n p] [Total n q] :
    Total n (if c then p else q) := by
  split <;> infer_instance

theorem Total.bind_of {p : P α} {f : α → P β} (hp : Total n p)
    (hf : ∀ m s a t, s.unread < n → p.run m s = some (some a, t) → ∃ o u, (f a).run m t = some (o, u)) :
    Total n (p >>= f) := by
  constructor
  intro m s hs
  obtain ⟨o, t, ht⟩ := hp.out m s hs
  rw [bind_run, ht]
  cases o with
  | none => exact ⟨_, _, rfl⟩
  | some a => exact hf m s a t hs ht

instance (p : P α) (f : α → P β) [hp : Total n p] [hf : ∀ a, Total n (f a)] : Total n (p >>= f) :=
  hp.bind_of fun m _ a _ hs ht => (hf a).out m _ (Nat.lt_of_le_of_lt (p.reach ht).unread_le hs)

instance (priority := 10500) (p : P α) (f : α → P β) [hp : Total (n + 1) p] [hs : Strict p]
    [hf : ∀ a, Total n (f a)] : Total (n + 1) (p >>= f) :=
  hp.bind_of fun m _ a _ hlt ht => (hf a).out m _ (by have := hs.out ht rfl; omega)

instance (f : α → β) (p : P α) [Total n p] : Total n (f <$> p) :=
  inferInstanceAs (Total n (p >>= fun a => pure (f a)))

/-- What `matchIf` did to the state. -/
theorem matchIf_run {f : TokenKind → Bool} {hf : f .eof = false} {m : Mode} {s t : Parser} {b : Bool}
    (h : (matchIf f hf).run m s = some (some b, t)) :
    (b = true ∧ t.unread < s.unread) ∨ (b = false ∧ t = s) := by
  have hrun : (matchIf f hf).run m s =
      some (some (if f s.current.kind then (true, s.advance) else (false, s)).1,
        (if f s.current.kind then (true, s.advance) else (false, s)).2) := rfl
  rw [hrun] at h
  cases hk : f s.current.kind with
  | true =>
    have hne : s.current.kind ≠ .eof := by
      intro he
      rw [he, hf] at hk
      cases hk
    simp only [hk, if_true] at h
    cases h
    exact Or.inl ⟨rfl, AccountLemmas.unread_advance_lt hne⟩
  | false =>
    simp only [hk, Bool.false_eq_true, if_false] at h
    cases h
    exact Or.inr ⟨rfl, rfl⟩

/-- A branch behind a consumed token may call the circle. -/
instance (priority := 11000) (f : TokenKind → Bool) (hf : f .eof = false) (p q : P α) [hp : Total n p]
    [hq : Total (n + 1) q] :
    Total (n + 1) (matchIf f hf >>= fun b => if b = true then p else q) := by
  apply Total.bind_of inferInstance
  intro m s b t hs ht
  rcases matchIf_run ht with ⟨rfl, hlt⟩ | ⟨rfl, rfl⟩
  · exact hp.out m t (by omega)
  · exact hq.out m t hs

instance (priority := 11000) (k : TokenKind) (hk : (TokenKind.eof == k) = false) (p q : P α)
    [Total n p] [Total (n + 1) q] :
    Total (n + 1) (matchTok k hk >>= fun b => if b = true then p else q) :=
  inferInstanceAs (Total (n + 1) (matchIf (· == k) hk >>= fun b => if b = true then p else q))

instance (k : TokenKind) (message : String) (hk : (TokenKind.eof == k) = false) :
    Total n (expect k message hk) := by
  unfold expect
  infer_instance

instance (f : TokenKind → Bool) (message : String) (hf : f .eof = false) :
    Total n (expectIf f message hf) := by
  unfold expectIf
  infer_instance

instance (k : TokenKind) (message : String) (hk : (TokenKind.eof == k) = false) :
    Total n (closing k message hk) := by
  unfold closing
  infer_instance

/-! ## Consumption -/

instance (message : String) (g : α → Bool) : StrictOn (fail message) g :=
  ⟨fun h => by cases h⟩

instance (c : Prop) [Decidable c] (p q : P α) (g : α → Bool) [StrictOn p g] [StrictOn q g] :
    StrictOn (if c then p else q) g := by
  split <;> infer_instance

instance (p : P α) (f : α → P β) (g : β → Bool) [hf : ∀ a, StrictOn (f a) g] :
    StrictOn (p >>= f) g := by
  constructor
  intro m s b t h hg
  obtain ⟨a, u, hu, ht⟩ := bind_some h
  exact Nat.lt_of_lt_of_le ((hf a).out ht hg) (p.reach hu).unread_le

instance (priority := 10500) (p : P α) (f : α → P β) (g : β → Bool) [hp : Strict p] :
    StrictOn (p >>= f) g := by
  constructor
  intro m s b t h _
  obtain ⟨a, u, hu, ht⟩ := bind_some h
  exact Nat.lt_of_le_of_lt ((f a).reach ht).unread_le (hp.out hu rfl)

/-- Either the first action consumed, or the second one does. -/
theorem StrictOn.bind_of {p : P α} {f : α → P β} (gp : α → Bool) {g : β → Bool} (hp : StrictOn p gp)
    (hf : ∀ a, gp a = false → StrictOn (f a) g) : StrictOn (p >>= f) g := by
  constructor
  intro m s b t h hg
  obtain ⟨a, u, hu, ht⟩ := bind_some h
  cases ha : gp a with
  | true => exact Nat.lt_of_le_of_lt ((f a).reach ht).unread_le (hp.out hu ha)
  | false => exact Nat.lt_of_lt_of_le ((hf a ha).out ht hg) (p.reach hu).unread_le

instance (f : α → β) (p : P α) [Strict p] : Strict (f <$> p) :=
  inferInstanceAs (Strict (p >>= fun a => pure (f a)))

instance (priority := 11000) (f : TokenKind → Bool) (hf : f .eof = false) (p q : P α) (g : α → Bool)
    [hq : StrictOn q g] : StrictOn (matchIf f hf >>= fun b => if b = true then p else q) g := by
  constructor
  intro m s a t h hg
  obtain ⟨b, u, hu, ht⟩ := bind_some h
  rcases matchIf_run hu with ⟨rfl, hlt⟩ | ⟨rfl, rfl⟩
  · exact Nat.lt_of_le_of_lt (p.reach ht).unread_le hlt
  · exact hq.out ht hg

instance (priority := 11000) (k : TokenKind) (hk : (TokenKind.eof == k) = false) (p q : P α)
    (g : α → Bool) [StrictOn q g] :
    StrictOn (matchTok k hk >>= fun b => if b = true then p else q) g :=
  inferInstanceAs (StrictOn (matchIf (· == k) hk >>= fun b => if b = true then p else q) g)

instance (f : TokenKind → Bool) (hf : f .eof = false) : StrictOn (matchIf f hf) id := by
  constructor
  intro m s b t h hg
  rcases matchIf_run h with ⟨-, hlt⟩ | ⟨rfl, -⟩
  · exact hlt
  · cases hg

instance (k : TokenKind) (hk : (TokenKind.eof == k) = false) : StrictOn (matchTok k hk) id :=
  inferInstanceAs (StrictOn (matchIf (· == k) hk) id)

instance : StrictOn (pure false : P Bool) id := ⟨fun h hg => by cases h; cases hg⟩

instance : StrictOn (pure none : P (Option α)) Option.isSome := ⟨fun h hg => by cases h; cases hg⟩

instance (a : σ) : StrictOn (pure (false, a) : P (Bool × σ)) Prod.fst :=
  ⟨fun h hg => by cases h; cases hg⟩

instance (k : TokenKind) (message : String) (hk : (TokenKind.eof == k) = false) :
    Strict (expect k message hk) := by
  unfold expect
  infer_instance

instance (f : TokenKind → Bool) (message : String) (hf : f .eof = false) :
    Strict (expectIf f message hf) := by
  unfold expectIf
  infer_instance

instance (close : Option TokenKind) : StrictOn (more close) id := by
  unfold more
  infer_instance

/-! ## Combinators -/

instance (p : P α) [hp : Total n p] : Total n (attempt p) := by
  constructor
  intro m s hs
  obtain ⟨o, t, ht⟩ := hp.out m s hs
  exact ⟨some o, t, by simp [attempt, ht]⟩

theorem attempt_some {p : P α} {m : Mode} {s t : Parser} {a : α}
    (h : (attempt p).run m s = some (some (some a), t)) : p.run m s = some (some a, t) := by
  obtain ⟨⟨o, u⟩, hrun, he⟩ := Option.map_eq_some_iff.mp h
  cases he
  exact hrun

instance (p : P α) [hp : Strict p] : StrictOn (do return (← attempt p).isSome) id := by
  constructor
  intro m s b t h hg
  obtain ⟨o, u, hu, ht⟩ := bind_some h
  cases ht
  obtain ⟨a, rfl⟩ := Option.isSome_iff_exists.mp hg
  exact hp.out (attempt_some hu) rfl

instance (p : P α) (f : Parser → Parser) (h1 : ∀ s, Reach s (f s))
    (h2 : ∀ s, s.panicMode = true → (f s).panicMode = true) [hp : Total n p] :
    Total n (onFail p f h1 h2) := by
  constructor
  intro m s hs
  obtain ⟨o, t, ht⟩ := hp.out m s hs
  cases o with
  | none => exact ⟨none, f t, by simp [onFail, ht]⟩
  | some a => exact ⟨some a, t, by simp [onFail, ht]⟩

instance (p : P α) (message : String) [Total n p] : Total n (orReport p message) := by
  unfold orReport
  infer_instance

instance (p : P α) (cp : Nat) (kind : SyntaxNodeKind) [Total n p] : Total n (orWrap p cp kind) := by
  unfold orWrap
  infer_instance

instance (k : TokenKind) (message : String) (hk : k ≠ .eof) :
    Total n (failPast k message hk : P α) := by
  unfold failPast
  infer_instance

theorem onFail_run (p : P α) (f : Parser → Parser) (h1 : ∀ s, Reach s (f s))
    (h2 : ∀ s, s.panicMode = true → (f s).panicMode = true) (m : Mode) (s : Parser) :
    (∀ t, p.run m s = some (none, t) → (onFail p f h1 h2).run m s = some (none, f t)) ∧
      ((∀ t, p.run m s ≠ some (none, t)) → (onFail p f h1 h2).run m s = p.run m s) := by
  unfold onFail
  dsimp only
  rcases p.run m s with _ | ⟨_ | a, u⟩
  · refine ⟨fun t h => ?_, fun _ => rfl⟩
    cases h
  · refine ⟨fun t h => ?_, fun h => absurd rfl (h u)⟩
    cases h
    rfl
  · refine ⟨fun t h => ?_, fun _ => rfl⟩
    cases h

theorem onFail_some {p : P α} {f : Parser → Parser} {h1 : ∀ s, Reach s (f s)}
    {h2 : ∀ s, s.panicMode = true → (f s).panicMode = true} {m : Mode} {s t : Parser} {a : α}
    (h : (onFail p f h1 h2).run m s = some (some a, t)) : p.run m s = some (some a, t) := by
  obtain ⟨hfailed, hpassed⟩ := onFail_run p f h1 h2 m s
  rw [← h]
  refine (hpassed fun u hu => ?_).symm
  rw [hfailed u hu] at h
  cases h

instance (p : P α) (f : Parser → Parser) (h1 : ∀ s, Reach s (f s))
    (h2 : ∀ s, s.panicMode = true → (f s).panicMode = true) (g : α → Bool) [hp : StrictOn p g] :
    StrictOn (onFail p f h1 h2) g :=
  ⟨fun h hg => hp.out (onFail_some h) hg⟩

instance (p : P α) (message : String) (g : α → Bool) [StrictOn p g] :
    StrictOn (orReport p message) g := by
  unfold orReport
  infer_instance

instance (p : P α) (cp : Nat) (kind : SyntaxNodeKind) (g : α → Bool) [StrictOn p g] :
    StrictOn (orWrap p cp kind) g := by
  unfold orWrap
  infer_instance

instance (k : TokenKind) (message : String) (hk : k ≠ .eof) (g : α → Bool) :
    StrictOn (failPast k message hk) g := by
  unfold failPast
  infer_instance

instance (p : P α) [hp : Total n p] : Total n (withoutBraceLit p) := by
  constructor
  intro m s hs
  have hs' : ({ s with noBraceLit := true } : Parser).unread < n := hs
  obtain ⟨o, t, ht⟩ := hp.out m _ hs'
  exact ⟨o, _, by simp [withoutBraceLit, ht]; rfl⟩

instance (p : P α) [hp : Total n p] : Total n (recover p) := by
  constructor
  intro m s hs
  obtain ⟨o, t, ht⟩ := hp.out m s hs
  cases o with
  | none => exact ⟨some none, t.synchronize, by simp [recover, ht]⟩
  | some a => exact ⟨some (some a), t, by simp [recover, ht]⟩

/-- `synchronize` after a failed call has moved on from the token the call began with. -/
theorem unread_synchronize_of_reach {s t : Parser} (hs : s.current.kind ≠ .eof) (h : Reach s t) :
    t.synchronize.unread < s.unread := by
  by_cases ht : t.current.kind = .eof
  · exact Nat.lt_of_le_of_lt (follows_synchronize t).unread_le (h.ended hs ht)
  · exact Nat.lt_of_lt_of_le (unread_synchronize_lt ht) h.unread_le

instance (p : P α) [hp : Strict p] : Moves (recover p) := by
  constructor
  intro m s o t hs h _
  have h' : (match p.run m s with
    | none => none
    | some (none, t) => some (some none, t.synchronize)
    | some (some a, t) => some (some (some a), t)) = some (some o, t) := h
  split at h'
  · cases h'
  · next u hu =>
    cases h'
    exact unread_synchronize_of_reach hs (p.reach hu)
  · next a u hu =>
    cases h'
    exact hp.out hu rfl

instance (priority := low) (p : P α) (g : α → Bool) [hp : StrictOn p g] : MovesOn p g :=
  ⟨fun _ h hg => hp.out h hg⟩

/-- An action in front that leaves the state alone. -/
instance (priority := 10500) (f : Parser → α) (q : α → P β) (g : β → Bool)
    [hq : ∀ a, MovesOn (q a) g] : MovesOn (ask f >>= q) g := by
  constructor
  intro m s b t hs h hg
  obtain ⟨a, u, hu, ht⟩ := bind_some h
  cases hu
  exact (hq _).out hs ht hg

instance (priority := 10500) (q : Nat → P β) (g : β → Bool) [∀ a, MovesOn (q a) g] :
    MovesOn (checkpoint >>= q) g := by
  unfold checkpoint
  infer_instance

instance (p : P α) (f : α → P β) (g : β → Bool) [hp : Moves p] : MovesOn (p >>= f) g := by
  constructor
  intro m s b t hs h _
  obtain ⟨a, u, hu, ht⟩ := bind_some h
  exact Nat.lt_of_le_of_lt ((f a).reach ht).unread_le (hp.out hs hu rfl)

/-! ## Loops -/

theorem loopRun_total {body : σ → Parser → Option (Option (Bool × σ) × Parser)}
    (htot : ∀ a s, s.unread < n → ∃ o t, body a s = some (o, t))
    (hstrict : ∀ {a s b t}, body a s = some (some (true, b), t) → t.unread < s.unread)
    {k : Nat} {a : σ} {s : Parser} (hs : s.unread < n) (hk : s.unread < k) :
    ∃ o t, loopRun body k a s = some (o, t) := by
  induction k generalizing a s with
  | zero => omega
  | succ k ih =>
    obtain ⟨o, t, ht⟩ := htot a s hs
    unfold loopRun
    rw [ht]
    rcases o with _ | ⟨_ | _, b⟩
    · exact ⟨_, _, rfl⟩
    · exact ⟨_, _, rfl⟩
    · have hlt := hstrict ht
      simp only [hlt, if_true]
      exact ih (by omega) (by omega)

instance (init : σ) (body : σ → P (Bool × σ)) [ht : ∀ a, Total n (body a)]
    [hs : ∀ a, StrictOn (body a) Prod.fst] : Total n (loopOn init body) := by
  constructor
  intro m s hlt
  exact loopRun_total (fun a t h => (ht a).out m t h) (fun {a _ _ _} h => (hs a).out h rfl) hlt
    (Nat.lt_succ_self _)

instance (body : P Bool) [hb : StrictOn body id] (u : Unit) :
    StrictOn (do return (← body, u) : P (Bool × Unit)) Prod.fst := by
  constructor
  intro m s r t h hg
  obtain ⟨b, v, hv, hp⟩ := bind_some h
  cases hp
  exact hb.out hv hg

instance (body : P Bool) [Total n body] [StrictOn body id] : Total n (loop body) := by
  unfold loop
  infer_instance

instance (k : TokenKind) (body : P Unit) (hk : (TokenKind.eof == k) = false) [Total n body] :
    Total n (whileTok k body hk) := by
  unfold whileTok
  infer_instance

instance (close : Option TokenKind) : Total n (more close) := by
  unfold more
  infer_instance

instance (item : P Unit) (close : Option TokenKind) [Total n item] : Total n (sepBy item close) := by
  unfold sepBy
  infer_instance

instance (close : TokenKind) (item : P Bool) [Total n item] [hi : MovesOn item id] :
    Total n (untilTok close item) := by
  have hround : StrictOn (do
      if ← ask fun s => s.current.kind == close || s.current.kind == .eof then return false
      else item) id := by
    constructor
    intro m s b t h hg
    obtain ⟨stop, u, hu, ht⟩ := bind_some h
    cases hu
    split at ht
    · cases ht
      cases hg
    · next hstop =>
      have hne : s.current.kind ≠ .eof := by
        intro he
        exact hstop (by simp [he])
      exact hi.out hne ht hg
  unfold untilTok
  infer_instance

/-- A loop whose result `g` accepts has consumed, if its rounds have. -/
theorem strictOn_loopOn (init : σ) (body : σ → P (Bool × σ)) (g : σ → Bool)
    (hb : ∀ a, StrictOn (body a) fun r => r.1 || g r.2) : StrictOn (loopOn init body) g := by
  constructor
  intro m s b t h hg
  have h' : loopRun (fun a => (body a).run m) (s.unread + 1) init s = some (some b, t) := h
  generalize s.unread + 1 = k at h'
  clear h
  induction k generalizing init s with
  | zero => cases h'
  | succ k ih =>
    unfold loopRun at h'
    split at h'
    · cases h'
    · cases h'
    · next hu =>
      cases h'
      exact (hb init).out hu (by simp [hg])
    · next b' u hu =>
      have hlt := (hb init).out hu rfl
      simp only [hlt, if_true] at h'
      exact Nat.lt_trans (ih _ h') hlt

/-- A loop that is sure to go round has consumed. -/
theorem loop_unread_lt {body : P Bool} {m : Mode} {s t : Parser}
    (hb : ∀ {b u}, body.run m s = some (some b, u) → b = true)
    (h : (loop body).run m s = some (some (), t)) : t.unread < s.unread := by
  have h' : loopRun (fun a => (do return (← body, a) : P (Bool × Unit)).run m) (s.unread + 1) () s =
      some (some (), t) := h
  unfold loopRun at h'
  split at h'
  · cases h'
  · cases h'
  · next hu =>
    obtain ⟨b, v, hv, hp⟩ := bind_some hu
    cases hp
    cases hb hv
  · next u hu =>
    split at h'
    · next hlt =>
      have hrest := loopRun_spec (fun {a} => (do return (← body, a) : P (Bool × Unit)).reach)
        (fun {a} => (do return (← body, a) : P (Bool × Unit)).failed) h'
      exact Nat.lt_of_le_of_lt hrest.1.unread_le hlt
    · cases h'

end Arche.Syntax
