import Arche.Syntax.Accounting

/-!
# Parser actions

A `parse_*` function is a `P α`: run on a state it yields `some (some a, t)`
for a return of `1` (with its out-parameters `a`), `some (none, t)` for a
return of `0`, and `none` if one of its loops goes round without consuming
anything. Every action carries what no part of the parser can break:

* `reach`: the text to read only gets shorter and the books of `Accounting`
  stay in order;
* `failed`: a return of `0` comes in panic mode, hence with a recorded error;
* `reads`: where the grammar's reading of the text is clean, the code's reading
  is the same.

The two readings differ in the loops over statements only. The grammar has the
empty statement `;` as a statement of its own; `parse_statement` returns `0`
for it, and the loops of the code answer with `synchronize`.
-/

namespace Arche.Syntax

inductive Mode where
  | code
  | grammar
  deriving DecidableEq, Repr

namespace Parser

/-- No error so far, and no empty statement that the two readings treat differently. -/
def Clean (s : Parser) : Prop := s.errors = [] ∧ s.loneEmpty = false

/-- `t` can come after `s`; with `b` on, `t` may sit at an end of input that a loop cap
forced. -/
structure Follows (b : Bool) (s t : Parser) : Prop where
  unread_le : t.unread ≤ s.unread
  ended : s.current.kind ≠ .eof → t.current.kind = .eof → t.unread < s.unread
  recorded : s.errors ≠ [] → t.errors ≠ []
  lone : s.loneEmpty = true → t.loneEmpty = true
  core : ∀ all, Core all s → Blame all s →
    Core all t ∧ (Blame all t ∨ (b = true ∧ t.current.kind = .eof))

abbrev Reach (s t : Parser) : Prop := Follows false s t

theorem Follows.refl (b : Bool) (s : Parser) : Follows b s s :=
  ⟨Nat.le_refl _, fun h h' => absurd h' h, fun h => h, fun h => h, fun _ hc hb => ⟨hc, Or.inl hb⟩⟩

theorem Follows.reach_core {s t : Parser} (h : Reach s t) {all : List Token} (hc : Core all s)
    (hb : Blame all s) : Core all t ∧ Blame all t := by
  obtain ⟨hct, hbt⟩ := h.core all hc hb
  refine ⟨hct, ?_⟩
  rcases hbt with hbt | ⟨hf, -⟩
  · exact hbt
  · cases hf

theorem Follows.trans {b : Bool} {s t u : Parser} (h1 : Reach s t) (h2 : Follows b t u) :
    Follows b s u where
  unread_le := Nat.le_trans h2.unread_le h1.unread_le
  ended := by
    intro hs hu
    by_cases ht : t.current.kind = .eof
    · exact Nat.lt_of_le_of_lt h2.unread_le (h1.ended hs ht)
    · exact Nat.lt_of_lt_of_le (h2.ended ht hu) h1.unread_le
  recorded := fun h => h2.recorded (h1.recorded h)
  lone := fun h => h2.lone (h1.lone h)
  core := by
    intro all hc hb
    obtain ⟨hct, hbt⟩ := h1.reach_core hc hb
    exact h2.core all hct hbt

/-- A state that still has a token in hand was not cut. -/
theorem Follows.reach {b : Bool} {s t : Parser} (h : Follows b s t) (ht : t.current.kind ≠ .eof) :
    Reach s t where
  unread_le := h.unread_le
  ended := h.ended
  recorded := h.recorded
  lone := h.lone
  core := by
    intro all hc hb
    obtain ⟨hct, hbt⟩ := h.core all hc hb
    refine ⟨hct, Or.inl ?_⟩
    rcases hbt with hbt | ⟨-, he⟩
    · exact hbt
    · exact absurd he ht

theorem Follows.weaken {b : Bool} {s t : Parser} (h : Reach s t) : Follows b s t where
  unread_le := h.unread_le
  ended := h.ended
  recorded := h.recorded
  lone := h.lone
  core := by
    intro all hc hb
    exact ⟨(h.reach_core hc hb).1, Or.inl (h.reach_core hc hb).2⟩

/-- A recorded error takes all blame. -/
theorem Follows.settle {b : Bool} {s t : Parser} (h : Follows b s t) (he : t.errors ≠ []) :
    Reach s t where
  unread_le := h.unread_le
  ended := h.ended
  recorded := h.recorded
  lone := h.lone
  core := fun all hc hb => ⟨(h.core all hc hb).1, Or.inl fun _ => Or.inl he⟩

theorem Clean.of_follows {b : Bool} {s t : Parser} (h : Follows b s t) (hc : t.Clean) : s.Clean := by
  constructor
  · by_contra hne
    exact h.recorded hne hc.1
  · cases hl : s.loneEmpty with
    | false => rfl
    | true => exact absurd (h.lone hl) (by rw [hc.2]; decide)

theorem not_clean_of_panic {s : Parser} (h : s.panicMode = true) : ¬ s.Clean :=
  fun hc => s.panic_recorded h hc.1

end Parser

/-! ## How the state functions move -/

namespace MoveLemmas

open Arche.Syntax.Parser AccountLemmas

/-- Changes of the state that concern neither the text nor the books. -/
theorem follows_of_same {b : Bool} {r s t : Parser} (h : Follows b r s) (hl : t.lexer = s.lexer)
    (hcur : t.current = s.current) (hhad : t.hadError = s.hadError) (herr : t.errors = s.errors)
    (hlone : s.loneEmpty = true → t.loneEmpty = true) (hleaves : t.leaves = s.leaves) :
    Follows b r t where
  unread_le := by
    have : t.unread = s.unread := by simp [unread, hl, hcur]
    rw [this]
    exact h.unread_le
  ended := by
    have : t.unread = s.unread := by simp [unread, hl, hcur]
    rw [this, hcur]
    exact h.ended
  recorded := by rw [herr]; exact h.recorded
  lone := fun hr => hlone (h.lone hr)
  core := by
    intro all hc hb
    obtain ⟨hcs, hbs⟩ := h.core all hc hb
    have hp : t.pending = s.pending := by simp [pending, hl, hcur]
    refine ⟨⟨?_, ?_, ?_, ?_⟩, ?_⟩
    · rw [hp]
      exact account_congr hcs.account hhad herr hleaves
    · rw [hcur]
      exact hcs.notComment
    · rw [hcur, hhad]
      exact hcs.flagged
    · rw [hcur, hhad, hl]
      exact hcs.ended
    · unfold Blame at *
      rw [hhad, herr, hcur]
      exact hbs

theorem reach_of_same {s t : Parser} (hl : t.lexer = s.lexer) (hcur : t.current = s.current)
    (hhad : t.hadError = s.hadError) (herr : t.errors = s.errors)
    (hlone : s.loneEmpty = true → t.loneEmpty = true) (hleaves : t.leaves = s.leaves) :
    Reach s t :=
  follows_of_same (Follows.refl false s) hl hcur hhad herr hlone hleaves

theorem reach_advance {s : Parser} (h : s.current.kind ≠ .eof) : Reach s s.advance where
  unread_le := Nat.le_of_lt (unread_advance_lt h)
  ended := fun _ _ => unread_advance_lt h
  recorded := by rw [(advance_sameFlags s).errors]; exact fun he => he
  lone := by rw [(advance_sameFlags s).loneEmpty]; exact fun hl => hl
  core := by
    intro all hc hb
    obtain ⟨hc', hb'⟩ := core_advance hc hb h
    exact ⟨hc', Or.inl hb'⟩

theorem report_panic (s : Parser) (message : String) : (s.report message).panicMode = true := by
  unfold report
  split
  · next h => exact h
  · rfl

theorem core_report {all : List Token} {s : Parser} (message : String) (hc : Core all s) :
    Core all (s.report message) ∧ Blame all (s.report message) := by
  have herr : (s.report message).errors ≠ [] :=
    (s.report message).panic_recorded (report_panic s message)
  refine ⟨?_, fun _ => Or.inl herr⟩
  unfold report
  split
  · exact hc
  · have hacc := hc.account
    refine ⟨?_, hc.notComment, fun _ => rfl, by simp⟩
    exact ⟨hacc.mem, by simp, by simp, hacc.fwd, hacc.weight, fun _ => Or.inl (by simp),
      hacc.noError⟩

/-- Reporting an error is allowed also at a forced end of input. -/
theorem reach_then_report {b : Bool} {s t : Parser} (h : Follows b s t) (message : String) :
    Reach s (t.report message) where
  unread_le := by
    have : (t.report message).unread = t.unread := by unfold report; split <;> rfl
    rw [this]
    exact h.unread_le
  ended := by
    have hu : (t.report message).unread = t.unread := by unfold report; split <;> rfl
    have hk : (t.report message).current = t.current := by unfold report; split <;> rfl
    rw [hu, hk]
    exact h.ended
  recorded := fun _ => (t.report message).panic_recorded (report_panic t message)
  lone := by
    have : (t.report message).loneEmpty = t.loneEmpty := by unfold report; split <;> rfl
    rw [this]
    exact h.lone
  core := by
    intro all hc hb
    obtain ⟨hct, hbt⟩ := core_report message (h.core all hc hb).1
    exact ⟨hct, Or.inl hbt⟩

theorem reach_report (s : Parser) (message : String) : Reach s (s.report message) :=
  reach_then_report (Follows.refl false s) message

theorem reach_wrap (s : Parser) (cp : Nat) (kind : SyntaxNodeKind) : Reach s (s.wrap cp kind) := by
  apply reach_of_same
  all_goals first | exact leaves_wrap s cp kind | (unfold wrap; split <;> first | rfl | exact id)

theorem follows_cut {s : Parser} (h : s.current.kind ≠ .eof) : Follows true s s.cut where
  unread_le := unread_cut_le s
  ended := by
    intro _ _
    simp [unread, cut, h]
  recorded := fun he => he
  lone := fun hl => hl
  core := by
    intro all hc _
    have hacc := hc.account
    rw [pending_of_ne h] at hacc
    have hpend : s.cut.pending = s.lexer.tokens := by simp [pending, cut]
    refine ⟨⟨?_, by simp [cut], by simp [cut], by simp [cut]⟩, Or.inr ⟨rfl, rfl⟩⟩
    rw [hpend]
    exact account_drop hacc rfl rfl
      (fun hf => ((fineFrom_cons_other hc.notComment).mp (hacc.fwd hf)).2)

theorem follows_syncLoop (n : Nat) (s : Parser) : Follows true s (s.syncLoop n) := by
  induction n generalizing s with
  | zero =>
    unfold syncLoop
    split
    · exact Follows.refl true s
    · next h => exact follows_cut h
  | succ n ih =>
    unfold syncLoop
    split
    · exact Follows.refl true s
    · next h =>
      split
      · exact Follows.refl true s
      · split
        · exact Follows.refl true s
        · exact (reach_advance h).trans (ih _)

theorem reach_calm (s : Parser) : Reach s s.calm :=
  reach_of_same rfl rfl rfl rfl (fun h => h) rfl

theorem follows_synchronize (s : Parser) : Follows true s s.synchronize := by
  unfold synchronize
  split
  · exact (reach_calm s).trans (follows_syncLoop _ _)
  · next h =>
    have hadv : Reach s.calm s.calm.advance := reach_advance h
    exact (reach_calm s).trans (hadv.trans (follows_syncLoop _ _))

/-- `synchronize` consumes the token in hand. -/
theorem unread_synchronize_lt {s : Parser} (h : s.current.kind ≠ .eof) :
    s.synchronize.unread < s.unread := by
  unfold synchronize
  simp only [h, if_false]
  have hadv : s.calm.advance.unread < s.unread := unread_advance_lt (s := s.calm) h
  exact Nat.lt_of_le_of_lt (follows_syncLoop _ _).unread_le hadv

theorem advance_previous (s : Parser) : s.advance.previous = s.current := by
  have hskip : ∀ (n : Nat) (t : Parser), (t.skipComments n).previous = t.previous := by
    intro n
    induction n with
    | zero => intro t; unfold skipComments; split <;> rfl
    | succ n ih =>
      intro t
      unfold skipComments
      split
      · exact ih _
      · rfl
  have hflag : ∀ t : Parser, t.flagError.previous = t.previous := by
    intro t
    unfold flagError
    split <;> rfl
  unfold advance
  rw [hflag, hskip]
  unfold take
  split <;> rfl

/-- After `;` the statement loops of the code consume the next token. If that is a `;`
too, they stop right behind it. -/
theorem synchronize_semi {s : Parser} (hp : s.panicMode = false) (hsemi : s.current.kind = .semi) :
    s.synchronize = s.advance := by
  have hcalm : s.calm = s := by
    cases s
    simp_all [calm]
  unfold synchronize
  rw [hcalm]
  have hne : ¬ s.current.kind = .eof := by rw [hsemi]; decide
  have hprev : s.advance.previous.kind = .semi := by rw [advance_previous, hsemi]
  simp only [hne, if_false]
  have hpos : maxSyncLoop = 999 + 1 := by unfold maxSyncLoop; rfl
  rw [hpos]
  unfold syncLoop
  split
  · rfl
  · simp

end MoveLemmas

/-! ## Actions -/

open Arche.Syntax.Parser MoveLemmas

/-- A parser action with the laws every one of them keeps. -/
structure P (α : Type) where
  run : Mode → Parser → Option (Option α × Parser)
  reach : ∀ {m s o t}, run m s = some (o, t) → Reach s t
  failed : ∀ {m s t}, run m s = some (none, t) → t.panicMode = true
  reads : ∀ {s o t}, run .grammar s = some (o, t) → t.Clean → run .code s = some (o, t)

namespace P

variable {α β : Type}

/-- An action that always returns, the same way in both readings. -/
def lift (f : Parser → α × Parser) (h : ∀ s, Reach s (f s).2) : P α where
  run _ s := some (some (f s).1, (f s).2)
  reach := by
    intro m s o t ht
    cases ht
    exact h s
  failed := by
    intro m s t ht
    cases ht
  reads := fun ht _ => ht

protected def pure (a : α) : P α := lift (fun s => (a, s)) (Follows.refl false)

protected def bind (p : P α) (f : α → P β) : P β where
  run m s :=
    match p.run m s with
    | none => none
    | some (none, t) => some (none, t)
    | some (some a, t) => (f a).run m t
  reach := by
    intro m s o t ht
    split at ht
    · cases ht
    · next u hu =>
      cases ht
      exact p.reach hu
    · next a u hu => exact (p.reach hu).trans ((f a).reach ht)
  failed := by
    intro m s t ht
    split at ht
    · cases ht
    · next u hu =>
      cases ht
      exact p.failed hu
    · next a u hu => exact (f a).failed ht
  reads := by
    intro s o t ht hc
    split at ht
    · cases ht
    · next u hu =>
      cases ht
      rw [p.reads hu hc]
    · next a u hu =>
      have hcu : u.Clean := Clean.of_follows ((f a).reach ht) hc
      rw [p.reads hu hcu]
      exact (f a).reads ht hc

instance : Monad P where
  pure := P.pure
  bind := P.bind

/-- No result: what is left of a call that ran out of text to consume. -/
def stuck : P α where
  run _ _ := none
  reach := fun h => by cases h
  failed := fun h => by cases h
  reads := fun h => by cases h

/-- Reading the state. -/
def ask (f : Parser → α) : P α := lift (fun s => (f s, s)) (Follows.refl false)

/-- `check`. -/
def check (k : TokenKind) : P Bool := ask fun s => s.current.kind == k

theorem rfl_false : false = false := rfl

/-- How a definition says that it matches a token of the text: `notEof _ rfl_false` is checked by
evaluation, and is no lemma of its own in each of them. -/
theorem notEof (k : TokenKind) (h : (TokenKind.eof == k) = false) : (TokenKind.eof == k) = false :=
  h

/-- Consume the token in hand if `f` accepts it. -/
def matchIf (f : TokenKind → Bool) (hf : f .eof = false := by decide) : P Bool :=
  lift (fun s => if f s.current.kind then (true, s.advance) else (false, s)) (by
    intro s
    split
    · next h =>
      have hne : s.current.kind ≠ .eof := by
        intro he
        rw [he, hf] at h
        cases h
      exact reach_advance hne
    · exact Follows.refl false s)

/-- `match`. -/
def matchTok (k : TokenKind)
    (hk : (TokenKind.eof == k) = false := by exact notEof _ rfl_false) : P Bool :=
  matchIf (· == k) hk

/-- `error`, going on. -/
def report (message : String) : P Unit :=
  lift (fun s => ((), s.report message)) (fun s => reach_report s message)

/-- `error(…); return 0;`. -/
def fail (message : String) : P α where
  run _ s := some (none, s.report message)
  reach := by
    intro m s o t ht
    cases ht
    exact reach_report s message
  failed := by
    intro m s t ht
    cases ht
    exact report_panic s message
  reads := fun ht _ => ht

/-- `if (!match(k)) { error(message); return 0; }`. -/
def expect (k : TokenKind) (message : String)
    (hk : (TokenKind.eof == k) = false := by exact notEof _ rfl_false) : P Unit := do
  if ← matchTok k hk then return () else fail message

/-- `expect` for a set of tokens. -/
def expectIf (f : TokenKind → Bool) (message : String) (hf : f .eof = false := by decide) :
    P Unit := do
  if ← matchIf f hf then return () else fail message

/-- `if (!match(k)) error(message);`. -/
def closing (k : TokenKind) (message : String)
    (hk : (TokenKind.eof == k) = false := by exact notEof _ rfl_false) : P Unit := do
  if ← matchTok k hk then return () else report message

def checkpoint : P Nat := ask fun s => s.items.length

def wrap (cp : Nat) (kind : SyntaxNodeKind) : P Unit :=
  lift (fun s => ((), s.wrap cp kind)) (fun s => reach_wrap s cp kind)

/-- `parser->in_foreign = b`. -/
def setInForeign (b : Bool) : P Unit :=
  lift (fun s => ((), { s with inForeign := b })) fun _ =>
    reach_of_same rfl rfl rfl rfl (fun h => h) rfl

/-- A call whose result `0` the caller goes on from: `none`. -/
def attempt (p : P α) : P (Option α) where
  run m s := (p.run m s).map fun r => (some r.1, r.2)
  reach := by
    intro m s o t ht
    obtain ⟨⟨o', t'⟩, hr, he⟩ := Option.map_eq_some_iff.mp ht
    cases he
    exact p.reach hr
  failed := by
    intro m s t ht
    obtain ⟨⟨o', t'⟩, hr, he⟩ := Option.map_eq_some_iff.mp ht
    cases he
  reads := by
    intro s o t ht hc
    obtain ⟨⟨o', t'⟩, hr, he⟩ := Option.map_eq_some_iff.mp ht
    cases he
    rw [p.reads hr hc]
    rfl

/-- What happens on the way out of a failed call. It may not end panic mode. -/
def onFail (p : P α) (f : Parser → Parser) (hreach : ∀ s, Reach s (f s))
    (hpanic : ∀ s, s.panicMode = true → (f s).panicMode = true) : P α where
  run m s :=
    match p.run m s with
    | some (none, t) => some (none, f t)
    | r => r
  reach := by
    intro m s o t ht
    split at ht
    · next u hu =>
      cases ht
      exact (p.reach hu).trans (hreach u)
    · exact p.reach ht
  failed := by
    intro m s t ht
    split at ht
    · next u hu =>
      cases ht
      exact hpanic u (p.failed hu)
    · exact p.failed ht
  reads := by
    intro s o t ht hc
    rcases hp : p.run .grammar s with _ | ⟨_ | a, u⟩
    · simp only [hp] at ht
      cases ht
    · simp only [hp] at ht
      cases ht
      rw [p.reads hp (Clean.of_follows (hreach u) hc)]
    · simp only [hp] at ht
      cases ht
      rw [p.reads hp hc]

/-- `if (!p) { error(message); return 0; }`. -/
def orReport (p : P α) (message : String) : P α :=
  onFail p (·.report message) (reach_report · message) (fun s _ => report_panic s message)

/-- A failed call whose partial result is wrapped all the same. -/
def orWrap (p : P α) (cp : Nat) (kind : SyntaxNodeKind) : P α :=
  onFail p (·.wrap cp kind) (reach_wrap · cp kind) (fun s h => by
    unfold Parser.wrap
    split <;> exact h)

/-- `error(message); advance(); return 0;` at the token `k`. -/
def failPast (k : TokenKind) (message : String) (hk : k ≠ .eof := by decide) : P α :=
  onFail (fail message) (fun s => if s.current.kind = k then s.advance else s)
    (fun s => by
      split
      · next h => exact reach_advance (by rw [h]; exact hk)
      · exact Follows.refl false s)
    (fun s h => by
      split
      · rw [(AccountLemmas.advance_sameFlags s).panicMode]
        exact h
      · exact h)

/-- `p` with `no_brace_lit` on, which is put back on every way out. -/
def withoutBraceLit (p : P α) : P α where
  run m s :=
    (p.run m { s with noBraceLit := true }).map fun r =>
      (r.1, { r.2 with noBraceLit := s.noBraceLit })
  reach := by
    intro m s o t ht
    obtain ⟨⟨o', u⟩, hr, he⟩ := Option.map_eq_some_iff.mp ht
    cases he
    have hset : Reach s { s with noBraceLit := true } :=
      reach_of_same rfl rfl rfl rfl (fun h => h) rfl
    exact follows_of_same (hset.trans (p.reach hr)) rfl rfl rfl rfl (fun h => h) rfl
  failed := by
    intro m s t ht
    obtain ⟨⟨o', u⟩, hr, he⟩ := Option.map_eq_some_iff.mp ht
    cases he
    have : u.panicMode = true := p.failed hr
    exact this
  reads := by
    intro s o t ht hc
    obtain ⟨⟨o', u⟩, hr, he⟩ := Option.map_eq_some_iff.mp ht
    cases he
    rw [p.reads hr hc]
    rfl

/-- `if (!p) { synchronize(); … }`: the failure was recorded, parsing goes on behind it. -/
def recover (p : P α) : P (Option α) where
  run m s :=
    match p.run m s with
    | none => none
    | some (none, t) => some (some none, t.synchronize)
    | some (some a, t) => some (some (some a), t)
  reach := by
    intro m s o t ht
    split at ht
    · cases ht
    · next u hu =>
      cases ht
      have hsync := follows_synchronize u
      exact (p.reach hu).trans
        (hsync.settle (hsync.recorded (u.panic_recorded (p.failed hu))))
    · next a u hu =>
      cases ht
      exact p.reach hu
  failed := by
    intro m s t ht
    split at ht <;> cases ht
  reads := by
    intro s o t ht hc
    split at ht
    · cases ht
    · next u hu =>
      cases ht
      have hcu : u.Clean := Clean.of_follows (follows_synchronize u) hc
      rw [p.reads hu hcu]
    · next a u hu =>
      cases ht
      rw [p.reads hu hc]

/-! ## Loops -/

variable {σ : Type}

/-- Rounds of a loop body until it says `false`, with the loop's local variables. A round
that goes on without having consumed anything would go on for ever: `none`. -/
def loopRun (body : σ → Parser → Option (Option (Bool × σ) × Parser)) :
    Nat → σ → Parser → Option (Option σ × Parser)
  | 0, _, _ => none
  | n + 1, a, s =>
    match body a s with
    | none => none
    | some (none, t) => some (none, t)
    | some (some (false, b), t) => some (some b, t)
    | some (some (true, b), t) => if t.unread < s.unread then loopRun body n b t else none

theorem loopRun_spec {body : σ → Parser → Option (Option (Bool × σ) × Parser)}
    (hreach : ∀ {a s o t}, body a s = some (o, t) → Reach s t)
    (hfail : ∀ {a s t}, body a s = some (none, t) → t.panicMode = true) {n : Nat} {a : σ}
    {s t : Parser} {o : Option σ} (h : loopRun body n a s = some (o, t)) :
    Reach s t ∧ (o = none → t.panicMode = true) := by
  induction n generalizing a s with
  | zero => cases h
  | succ n ih =>
    unfold loopRun at h
    split at h
    · cases h
    · next u hu =>
      cases h
      exact ⟨hreach hu, fun _ => hfail hu⟩
    · next b u hu =>
      cases h
      exact ⟨hreach hu, fun hn => by cases hn⟩
    · next b u hu =>
      split at h
      · exact ⟨(hreach hu).trans (ih h).1, (ih h).2⟩
      · cases h

theorem loopRun_reads {body body' : σ → Parser → Option (Option (Bool × σ) × Parser)}
    (hreach : ∀ {a s o t}, body a s = some (o, t) → Reach s t)
    (hfail : ∀ {a s t}, body a s = some (none, t) → t.panicMode = true)
    (hreads : ∀ {a s o t}, body a s = some (o, t) → t.Clean → body' a s = some (o, t)) {n : Nat}
    {a : σ} {s t : Parser} {o : Option σ} (h : loopRun body n a s = some (o, t)) (hc : t.Clean) :
    loopRun body' n a s = some (o, t) := by
  induction n generalizing a s with
  | zero => cases h
  | succ n ih =>
    unfold loopRun at h ⊢
    split at h
    · cases h
    · next u hu =>
      cases h
      rw [hreads hu hc]
    · next b u hu =>
      cases h
      rw [hreads hu hc]
    · next b u hu =>
      split at h
      · next hlt =>
        have hcu : u.Clean := Clean.of_follows (loopRun_spec hreach hfail h).1 hc
        rw [hreads hu hcu]
        simp only [hlt, if_true]
        exact ih h
      · cases h

/-- A loop with local variables: `body` says whether it goes round again. -/
def loopOn (init : σ) (body : σ → P (Bool × σ)) : P σ where
  run m s := loopRun (fun a => (body a).run m) (s.unread + 1) init s
  reach := fun h => (loopRun_spec (fun {a} => (body a).reach) (fun {a} => (body a).failed) h).1
  failed := fun h => (loopRun_spec (fun {a} => (body a).reach) (fun {a} => (body a).failed) h).2 rfl
  reads := fun h hc => loopRun_reads (fun {a} => (body a).reach) (fun {a} => (body a).failed)
    (fun {a} => (body a).reads) h hc

/-- A loop without local variables. -/
def loop (body : P Bool) : P Unit :=
  loopOn () fun _ => do return (← body, ())

/-- `while (check(k)) { advance(); body }`. -/
def whileTok (k : TokenKind) (body : P Unit)
    (hk : (TokenKind.eof == k) = false := by exact notEof _ rfl_false) : P Unit :=
  loop do
    if ← matchTok k hk then
      body
      return true
    else return false

/-- `match(TOK_COMMA) && !check(close)`. -/
def more (close : Option TokenKind) : P Bool := do
  if ← matchTok .comma then
    let atClose ← ask fun s => close == some s.current.kind
    return !atClose
  else return false

/-- `do { item } while (match(TOK_COMMA) && !check(close))`. -/
def sepBy (item : P Unit) (close : Option TokenKind) : P Unit :=
  loop do
    item
    more close

/-- `while (!check(close) && !check(TOK_EOF)) { item }`, left when `item` says `false`. -/
def untilTok (close : TokenKind) (item : P Bool) : P Unit :=
  loop do
    if ← ask fun s => s.current.kind == close || s.current.kind == .eof then return false
    else item

end P

end Arche.Syntax
