import Arche.Syntax.ParserState

/-!
# Where the tokens of a text are

At every moment of a parse each token of the text is a leaf of the tree, is
still to come, or was lost. `Account` keeps the books: as long as `had_error`
is off the leaves and the tokens to come are the whole text, and once it is on
an error is recorded, a token is missing, or the text has an error token.
`Blame` says why it can be on with no error recorded: the text has an error
token, or more comments in a row than the comment loop takes.
-/

namespace Arche.Syntax

/-- The leaf `advance` makes of a token. -/
def Token.leaf32 (t : Token) : Leaf := ⟨t.kind, t.start % 4294967296, t.length % 4294967296⟩

/-- `k` comments stand right before the list; no run of comments exceeds the loop cap. -/
def runsOk : Nat → List Token → Prop
  | _, [] => True
  | k, t :: ts =>
    if t.kind = .comment then k < Parser.maxCommentLoop ∧ runsOk (k + 1) ts else runsOk 0 ts

instance decidableRunsOk : (k : Nat) → (ts : List Token) → Decidable (runsOk k ts)
  | _, [] => .isTrue trivial
  | k, t :: ts =>
    have := decidableRunsOk (k + 1) ts
    have := decidableRunsOk 0 ts
    inferInstanceAs (Decidable (if t.kind = .comment then k < Parser.maxCommentLoop ∧ runsOk (k + 1) ts
      else runsOk 0 ts))

def FineFrom (k : Nat) (ts : List Token) : Prop :=
  (∀ t ∈ ts, t.kind ≠ .error) ∧ runsOk k ts

instance (k : Nat) (ts : List Token) : Decidable (FineFrom k ts) :=
  inferInstanceAs (Decidable (_ ∧ _))

/-- No error token, and no more than `maxCommentLoop` comments in a row. -/
def Fine (ts : List Token) : Prop := FineFrom 0 ts

instance (ts : List Token) : Decidable (Fine ts) := inferInstanceAs (Decidable (FineFrom 0 ts))

namespace Parser

def leaves (s : Parser) : List Leaf := leavesOf s.items

/-- The tokens still to come, the one in hand first. -/
def pending (s : Parser) : List Token :=
  (if s.current.kind = .eof then [] else [s.current]) ++ s.lexer.tokens

/-- The books for a text with tokens `all`, of which `pend` are still to come. -/
structure Account (all pend : List Token) (k : Nat) (s : Parser) : Prop where
  mem : ∀ t ∈ pend, t ∈ all
  keep : s.hadError = false → s.leaves ++ pend.map Token.leaf32 = all.map Token.leaf32
  runs : s.hadError = false → FineFrom k pend → Fine all
  fwd : Fine all → FineFrom k pend
  weight : s.leaves.length + pend.length ≤ all.length
  lost : s.hadError = true →
    s.errors ≠ [] ∨ s.leaves.length + pend.length < all.length ∨ ∃ t ∈ all, t.kind = .error
  noError : ∀ l ∈ s.leaves, l.kind ≠ .error

/-- Why `had_error` can be on. -/
def Blame (all : List Token) (s : Parser) : Prop :=
  s.hadError = true → s.errors ≠ [] ∨ ¬ Fine all

/-- The books between two calls of `advance`. -/
structure Core (all : List Token) (s : Parser) : Prop where
  account : Account all s.pending 0 s
  notComment : s.current.kind ≠ .comment
  flagged : s.current.kind = .error → s.hadError = true
  ended : s.hadError = false → s.current.kind = .eof → s.lexer.tokens = []

/-- What the parser never touches outside its own bookkeeping functions. -/
structure SameFlags (s t : Parser) : Prop where
  errors : t.errors = s.errors
  panicMode : t.panicMode = s.panicMode
  loneEmpty : t.loneEmpty = s.loneEmpty
  recursionDepth : t.recursionDepth = s.recursionDepth
  noBraceLit : t.noBraceLit = s.noBraceLit
  inForeign : t.inForeign = s.inForeign

theorem SameFlags.refl (s : Parser) : SameFlags s s := ⟨rfl, rfl, rfl, rfl, rfl, rfl⟩

theorem SameFlags.trans {s t u : Parser} (h1 : SameFlags s t) (h2 : SameFlags t u) :
    SameFlags s u :=
  ⟨h2.errors.trans h1.errors, h2.panicMode.trans h1.panicMode, h2.loneEmpty.trans h1.loneEmpty,
    h2.recursionDepth.trans h1.recursionDepth, h2.noBraceLit.trans h1.noBraceLit,
    h2.inForeign.trans h1.inForeign⟩

end Parser

/-! ## Leaves -/

namespace AccountLemmas

open Arche.Syntax.Parser

theorem leavesOf_append (a b : List Elem) : leavesOf (a ++ b) = leavesOf a ++ leavesOf b := by
  induction a with
  | nil => simp [leavesOf]
  | cons e es ih => simp [leavesOf, ih]

theorem leaves_emit (s : Parser) (t : Token) : (s.emit t).leaves = s.leaves ++ [t.leaf32] := by
  simp [leaves, emit, leavesOf_append, leavesOf, Elem.leaves, Token.leaf32]

theorem leaves_wrap (s : Parser) (cp : Nat) (kind : SyntaxNodeKind) :
    (s.wrap cp kind).leaves = s.leaves := by
  unfold wrap
  split
  · rfl
  · have hsplit : leavesOf (s.items.take cp) ++ leavesOf (s.items.drop cp) = leavesOf s.items := by
      rw [← leavesOf_append, List.take_append_drop]
    simpa [leaves, leavesOf_append, leavesOf, Elem.leaves] using hsplit

/-! ## Comment runs -/

theorem fineFrom_cons_other {k : Nat} {t : Token} {ts : List Token} (h : t.kind ≠ .comment) :
    FineFrom k (t :: ts) ↔ t.kind ≠ .error ∧ Fine ts := by
  simp [FineFrom, Fine, runsOk, h, and_assoc]

theorem fineFrom_cons_comment {k : Nat} {t : Token} {ts : List Token} (h : t.kind = .comment) :
    FineFrom k (t :: ts) ↔ k < maxCommentLoop ∧ FineFrom (k + 1) ts := by
  simp only [FineFrom, runsOk, h, List.mem_cons, forall_eq_or_imp, if_true]
  constructor
  · rintro ⟨⟨-, he⟩, hk, hr⟩
    exact ⟨hk, he, hr⟩
  · rintro ⟨hk, he, hr⟩
    exact ⟨⟨by decide, he⟩, hk, hr⟩

theorem fineFrom_nil (k : Nat) : FineFrom k [] := ⟨by simp, trivial⟩

/-! ## The steps of `advance` -/

theorem pending_next (s : Parser) : s.next.pending = s.lexer.tokens := by
  unfold pending next
  dsimp only
  split
  · next h =>
    rw [Lexer.tokens_of_eof h, Lexer.tokens_of_eof (LexerLemmas.lexerNextToken_eof h)]
    rfl
  · next h => rw [Lexer.tokens_of_ne h]; rfl

theorem next_ended (s : Parser) (h : s.next.current.kind = .eof) : s.next.lexer.tokens = [] :=
  Lexer.tokens_of_eof (LexerLemmas.lexerNextToken_eof h)

theorem pending_of_ne {s : Parser} (h : s.current.kind ≠ .eof) :
    s.pending = s.current :: s.lexer.tokens := by
  simp [pending, h]

/-- Consuming the token in hand as a leaf. -/
theorem account_emit {all ts : List Token} {t : Token} {k k' : Nat} {s : Parser}
    (hacc : Account all (t :: ts) k s) (hne : t.kind ≠ .error)
    (hback : FineFrom k' ts → FineFrom k (t :: ts)) (hfwd : FineFrom k (t :: ts) → FineFrom k' ts) :
    Account all ts k' (s.emit t) where
  mem := fun u hu => hacc.mem u (List.mem_cons_of_mem t hu)
  keep := by
    intro h
    rw [leaves_emit, ← hacc.keep h]
    simp
  runs := fun h hf => hacc.runs h (hback hf)
  fwd := fun hf => hfwd (hacc.fwd hf)
  weight := by
    have hw := hacc.weight
    simp only [List.length_cons] at hw
    rw [leaves_emit, List.length_append]
    simp only [List.length_cons, List.length_nil]
    omega
  lost := by
    intro h
    rcases hacc.lost h with he | hl | herr
    · exact Or.inl he
    · refine Or.inr (Or.inl ?_)
      simp only [List.length_cons] at hl
      rw [leaves_emit, List.length_append]
      simp only [List.length_cons, List.length_nil]
      omega
    · exact Or.inr (Or.inr herr)
  noError := by
    intro l hl
    rw [leaves_emit, List.mem_append, List.mem_singleton] at hl
    rcases hl with hl | rfl
    · exact hacc.noError l hl
    · exact hne

/-- A token that is dropped: `had_error` is on from here. -/
theorem account_drop {all ts : List Token} {t : Token} {k k' : Nat} {s s' : Parser}
    (hacc : Account all (t :: ts) k s) (hon : s'.hadError = true) (hleaves : s'.leaves = s.leaves)
    (hfwd : Fine all → FineFrom k' ts) : Account all ts k' s' where
  mem := fun u hu => hacc.mem u (List.mem_cons_of_mem t hu)
  keep := fun h => by rw [hon] at h; cases h
  runs := fun h => by rw [hon] at h; cases h
  fwd := hfwd
  weight := by
    have hw := hacc.weight
    rw [hleaves]
    simp only [List.length_cons] at hw
    omega
  lost := by
    intro _
    have hw := hacc.weight
    refine Or.inr (Or.inl ?_)
    rw [hleaves]
    simp only [List.length_cons] at hw
    omega
  noError := by rw [hleaves]; exact hacc.noError

theorem account_congr {all pend : List Token} {k : Nat} {s s' : Parser}
    (hacc : Account all pend k s) (hhad : s'.hadError = s.hadError) (herr : s'.errors = s.errors)
    (hleaves : s'.leaves = s.leaves) : Account all pend k s' where
  mem := hacc.mem
  keep := by rw [hhad, hleaves]; exact hacc.keep
  runs := by rw [hhad]; exact hacc.runs
  fwd := hacc.fwd
  weight := by rw [hleaves]; exact hacc.weight
  lost := by rw [hhad, herr, hleaves]; exact hacc.lost
  noError := by rw [hleaves]; exact hacc.noError

/-- The comment loop, after `k` comments of the run: the books balance when it stops. -/
theorem skipComments_account {all : List Token} (n : Nat) :
    ∀ {k : Nat} {s : Parser}, k + n = maxCommentLoop → Account all s.pending k s → Blame all s →
      (s.current.kind = .eof → s.lexer.tokens = []) →
      let s' := s.skipComments n
      Account all s'.pending 0 s' ∧ Blame all s' ∧ s'.current.kind ≠ .comment ∧
        (s'.hadError = false → s'.current.kind = .eof → s'.lexer.tokens = []) := by
  -- a state whose token is no comment is where the loop stops
  have hstop : ∀ {k : Nat} {s : Parser}, Account all s.pending k s →
      (s.current.kind = .eof → s.lexer.tokens = []) → s.current.kind ≠ .comment →
      Account all s.pending 0 s := by
    intro k s hacc hend hc
    have hiff : FineFrom k s.pending ↔ FineFrom 0 s.pending := by
      by_cases he : s.current.kind = .eof
      · have hnil : s.pending = [] := by simp [pending, he, hend he]
        rw [hnil]
        exact ⟨fun _ => fineFrom_nil 0, fun _ => fineFrom_nil k⟩
      · rw [pending_of_ne he, fineFrom_cons_other hc, fineFrom_cons_other hc]
    exact ⟨hacc.mem, hacc.keep, fun h hf => hacc.runs h (hiff.mpr hf), fun hf => hiff.mp (hacc.fwd hf),
      hacc.weight, hacc.lost, hacc.noError⟩
  induction n with
  | zero =>
    intro k s hk hacc hblame hend
    unfold skipComments
    dsimp only
    split
    · next hc =>
      have hne : s.current.kind ≠ .eof := by rw [hc]; decide
      have hpend : s.cut.pending = s.lexer.tokens := by simp [pending, cut]
      have hnot : ¬ Fine all := by
        intro hf
        have hfine := hacc.fwd hf
        rw [pending_of_ne hne, fineFrom_cons_comment hc] at hfine
        omega
      rw [pending_of_ne hne] at hacc
      refine ⟨?_, fun _ => Or.inr hnot, by simp [cut], by simp [cut]⟩
      rw [hpend]
      exact account_drop hacc rfl rfl (fun hf => absurd hf hnot)
    · next hc => exact ⟨hstop hacc hend hc, hblame, hc, fun _ => hend⟩
  | succ n ih =>
    intro k s hk hacc hblame hend
    unfold skipComments
    dsimp only
    split
    · next hc =>
      have hne : s.current.kind ≠ .eof := by rw [hc]; decide
      rw [pending_of_ne hne] at hacc
      have hemit : Account all s.lexer.tokens (k + 1) (s.emit s.current) :=
        account_emit hacc (by rw [hc]; decide)
          (fun hf => (fineFrom_cons_comment hc).mpr ⟨by omega, hf⟩)
          (fun hf => ((fineFrom_cons_comment hc).mp hf).2)
      have hnext : Account all (s.emit s.current).next.pending (k + 1) (s.emit s.current).next := by
        rw [pending_next]
        exact account_congr hemit rfl rfl rfl
      exact ih (by omega) hnext hblame (next_ended _)
    · next hc => exact ⟨hstop hacc hend hc, hblame, hc, fun _ => hend⟩

theorem skipComments_sameFlags (n : Nat) (s : Parser) : SameFlags s (s.skipComments n) := by
  induction n generalizing s with
  | zero =>
    unfold skipComments
    split
    · exact ⟨rfl, rfl, rfl, rfl, rfl, rfl⟩
    · exact SameFlags.refl s
  | succ n ih =>
    unfold skipComments
    split
    · have hemit : SameFlags s (s.emit s.current).next := ⟨rfl, rfl, rfl, rfl, rfl, rfl⟩
      exact hemit.trans (ih _)
    · exact SameFlags.refl s

theorem flagError_sameFlags (s : Parser) : SameFlags s s.flagError := by
  unfold flagError
  split <;> exact ⟨rfl, rfl, rfl, rfl, rfl, rfl⟩

/-- Reading on from a state whose token in hand is settled. -/
theorem core_read {all : List Token} {s : Parser} (hacc : Account all s.lexer.tokens 0 s)
    (hblame : Blame all s) :
    Core all (s.next.skipComments maxCommentLoop).flagError ∧
      Blame all (s.next.skipComments maxCommentLoop).flagError := by
  have hnext : Account all s.next.pending 0 s.next := by
    rw [pending_next]
    exact account_congr hacc rfl rfl rfl
  obtain ⟨ha, hb, hc, he⟩ :=
    skipComments_account maxCommentLoop (Nat.zero_add _) hnext hblame (next_ended s)
  generalize s.next.skipComments maxCommentLoop = t at ha hb hc he
  unfold flagError
  split
  · next herr =>
    have hmem : t.current ∈ t.pending := by simp [pending, herr]
    have hall : ∃ u ∈ all, u.kind = .error := ⟨t.current, ha.mem _ hmem, herr⟩
    have hnot : ¬ Fine all := fun hf => by
      obtain ⟨u, hu, hk⟩ := hall
      exact hf.1 u hu hk
    refine ⟨⟨?_, hc, fun _ => rfl, by simp⟩, fun _ => Or.inr hnot⟩
    exact ⟨ha.mem, by simp, by simp, ha.fwd, ha.weight, fun _ => Or.inr (Or.inr hall), ha.noError⟩
  · next herr => exact ⟨⟨ha, hc, fun h => absurd h herr, he⟩, hb⟩

theorem core_advance {all : List Token} {s : Parser} (hcore : Core all s) (hblame : Blame all s)
    (hne : s.current.kind ≠ .eof) : Core all s.advance ∧ Blame all s.advance := by
  have hacc := hcore.account
  rw [pending_of_ne hne] at hacc
  unfold advance
  refine core_read ?_ ?_
  case refine_2 =>
    unfold take
    split <;> exact hblame
  unfold take
  split
  · next h =>
    have hemit : Account all s.lexer.tokens 0 (s.emit s.current) :=
      account_emit hacc h.2 (fun hf => (fineFrom_cons_other hcore.notComment).mpr ⟨h.2, hf⟩)
        (fun hf => ((fineFrom_cons_other hcore.notComment).mp hf).2)
    exact account_congr hemit rfl rfl rfl
  · next h =>
    have herr : s.current.kind = .error := by
      by_contra hn
      exact h ⟨hne, hn⟩
    have hdrop : Account all s.lexer.tokens 0 s :=
      account_drop hacc (hcore.flagged herr) rfl
        (fun hf => ((fineFrom_cons_other hcore.notComment).mp (hacc.fwd hf)).2)
    exact account_congr hdrop rfl rfl rfl

theorem advance_sameFlags (s : Parser) : SameFlags s s.advance := by
  have htake : SameFlags s s.take.next := by
    unfold take
    split <;> exact ⟨rfl, rfl, rfl, rfl, rfl, rfl⟩
  exact htake.trans ((skipComments_sameFlags _ _).trans (flagError_sameFlags _))

theorem core_create (src : List Char) :
    Core (Lexer.init src).tokens (Parser.create src) ∧
      Blame (Lexer.init src).tokens (Parser.create src) := by
  have hacc : Account (Lexer.init src).tokens (Lexer.init src).tokens 0 (Parser.init src) :=
    ⟨fun _ h => h, fun _ => rfl, fun _ h => h, fun h => h, by simp [leaves, Parser.init, leavesOf],
      by simp [Parser.init], by simp [leaves, Parser.init, leavesOf]⟩
  have hblame : Blame (Lexer.init src).tokens (Parser.init src) := by simp [Blame, Parser.init]
  exact core_read (s := (Parser.init src).take) (account_congr hacc rfl rfl rfl) hblame

/-! ## Unread bytes -/

theorem unread_next_le (s : Parser) : s.next.unread ≤ s.lexer.rest.length := by
  unfold unread next
  dsimp only
  split
  · have := LexerLemmas.lexerNextToken_le s.lexer
    omega
  · next h =>
    have := LexerLemmas.lexerNextToken_lt h
    omega

theorem unread_cut_le (s : Parser) : s.cut.unread ≤ s.unread := by
  have h : s.cut.unread = s.lexer.rest.length := by simp [unread, cut]
  rw [h]
  unfold unread
  omega

theorem unread_skipComments_le (n : Nat) (s : Parser) : (s.skipComments n).unread ≤ s.unread := by
  induction n generalizing s with
  | zero =>
    unfold skipComments
    split
    · exact unread_cut_le s
    · exact Nat.le_refl _
  | succ n ih =>
    unfold skipComments
    split
    · refine Nat.le_trans (ih _) (Nat.le_trans (unread_next_le _) ?_)
      have : (s.emit s.current).lexer.rest.length ≤ s.unread := Nat.le_add_right _ _
      exact this
    · exact Nat.le_refl _

theorem unread_flagError (s : Parser) : s.flagError.unread = s.unread := by
  unfold flagError
  split <;> rfl

theorem unread_advance_le_rest (s : Parser) : s.advance.unread ≤ s.lexer.rest.length := by
  have htake : s.take.lexer = s.lexer := by
    unfold take
    split <;> rfl
  unfold advance
  rw [unread_flagError, ← htake]
  exact Nat.le_trans (unread_skipComments_le _ _) (unread_next_le _)

/-- Every token in hand that is consumed makes the text shorter. -/
theorem unread_advance_lt {s : Parser} (h : s.current.kind ≠ .eof) : s.advance.unread < s.unread := by
  have hrest := unread_advance_le_rest s
  have : s.unread = s.lexer.rest.length + 1 := by simp [unread, h]
  omega

end AccountLemmas

end Arche.Syntax
