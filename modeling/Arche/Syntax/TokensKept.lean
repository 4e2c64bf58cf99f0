import Arche.Syntax.Termination

/-!
# Which accepted texts keep their tokens

`parse_source` accepts a text when no error was recorded. Four things lose a
token all the same, and nothing else does: an error token of the lexer, a run of
comments longer than the comment loop takes, a declaration behind the last one
that `parse_program` reads, and a place that does not fit the 32 bits of a leaf.
-/

namespace Arche.Syntax

open P Arche.Syntax.Parser MoveLemmas

/-- The tokens `lexer_next_token` produces on a text, without the end of input. -/
def tokensOf (src : List Char) : List Token := (Lexer.init src).tokens

/-- What a leaf should say about its token. -/
def Token.leaf (t : Token) : Leaf := ⟨t.kind, t.start, t.length⟩

/-- The leaves of the tree are the tokens of the text. -/
def KeepsTokens (src : List Char) (r : ParseResult) : Prop :=
  leavesOf r.children = (tokensOf src).map Token.leaf

/-- Every token has its place and its length within 32 bits. -/
def FitsLeaves (ts : List Token) : Prop :=
  ∀ t ∈ ts, t.start < 4294967296 ∧ t.length < 4294967296

/-- How many declarations a text has: those the loop of `parse_program` reads when nothing
caps it. -/
def declCount (src : List Char) : Nat :=
  ((parseWith (sufficientDepth src) .code none src).map (·.1)).getD 0

/-! ## The loop over declarations, with and without its cap -/

section

variable {decl : P SyntaxNodeKind} {m : Mode} {limit : Option Nat} {k count c : Nat} {s f : Parser}

theorem programRun_count_le (h : programRun decl m limit k count s = some (c, f)) : count ≤ c := by
  induction k generalizing count s with
  | zero => cases h
  | succ k ih =>
    unfold programRun at h
    split at h
    · cases h
      exact Nat.le_refl _
    split at h
    · cases h
      exact Nat.le_refl _
    split at h
    · split at h
      · have := ih h
        omega
      · cases h
    · cases h

/-- The loop with a cap ends where the loop without it does, or at the cap with a token in
hand and more declarations to come. -/
theorem programRun_capped {l c' : Nat} {f' : Parser} (hl : count ≤ l)
    (h : programRun decl m (some l) k count s = some (c, f))
    (hfree : programRun decl m none k count s = some (c', f')) :
    (c' ≤ l ∧ Reach s f ∧ f.current.kind = .eof) ∨
      (l < c' ∧ ∃ u, Reach s u ∧ u.current.kind ≠ .eof ∧ f = { u with hadError := true }) := by
  induction k generalizing count s with
  | zero => cases h
  | succ k ih =>
    unfold programRun at h hfree
    split at h
    · next heof =>
      simp only [heof, if_true] at hfree
      cases h
      cases hfree
      exact Or.inl ⟨hl, Follows.refl false _, heof⟩
    next hne =>
    simp only [hne, if_false, Option.any_none, Bool.false_eq_true] at hfree
    -- the loop without the cap reads this declaration in any case
    split at hfree
    · next t ht =>
      split at hfree
      · next hlt =>
        split at h
        · next hcap =>
          have hcount := programRun_count_le hfree
          have hcap' : l < count + 1 := by simpa using hcap
          have hc : l < c' := by omega
          cases h
          exact Or.inr ⟨hc, s, Follows.refl false s, hne, rfl⟩
        · next hcap =>
          have hcap' : ¬ l < count + 1 := by simpa using hcap
          simp only [ht, hlt, if_true] at h
          have hreach : Reach s t := (declNode decl).reach ht
          rcases ih (by omega) h hfree with ⟨hc, hf, heof⟩ | ⟨hc, u, hu, hue, rfl⟩
          · exact Or.inl ⟨hc, hreach.trans hf, heof⟩
          · exact Or.inr ⟨hc, u, hreach.trans hu, hue, rfl⟩
      · cases hfree
    · cases hfree

end

/-! ## Leaves and tokens -/

theorem leaf32_eq_leaf {ts : List Token} :
    ts.map Token.leaf32 = ts.map Token.leaf ↔ FitsLeaves ts := by
  rw [List.map_inj_left]
  constructor
  · intro h t ht
    have := h t ht
    simp only [Token.leaf32, Token.leaf, Leaf.mk.injEq, true_and] at this
    omega
  · intro h t ht
    have := h t ht
    simp only [Token.leaf32, Token.leaf, Leaf.mk.injEq, true_and]
    omega

section

variable {all : List Token} {f : Parser}

/-- A parse that ended with its flag off has every token of a text that loses none. -/
theorem keeps_of_unflagged (hc : Core all f) (heof : f.current.kind = .eof)
    (hhad : f.hadError = false) : f.leaves = all.map Token.leaf32 ∧ Fine all := by
  have hpend : f.pending = [] := by simp [pending, heof, hc.ended hhad heof]
  have hkeep := hc.account.keep hhad
  have hruns := hc.account.runs hhad
  rw [hpend] at hkeep hruns
  exact ⟨by simpa using hkeep, hruns (AccountLemmas.fineFrom_nil 0)⟩

/-- With the flag on and no error recorded, a token is missing. -/
theorem misses_of_flagged (hc : Core all f) (hhad : f.hadError = true) (herr : f.errors = []) :
    f.leaves ≠ all.map Token.leaf := by
  intro heq
  rcases hc.account.lost hhad with h | h | ⟨t, ht, hk⟩
  · exact h herr
  · rw [heq, List.length_map] at h
    omega
  · have hmem : t.leaf ∈ f.leaves := by
      rw [heq]
      exact List.mem_map_of_mem ht
    exact hc.account.noError _ hmem hk

/-- With a token in hand, that one at least is missing. -/
theorem misses_of_pending (hc : Core all f) (hne : f.current.kind ≠ .eof) :
    f.leaves ≠ all.map Token.leaf := by
  intro heq
  have hweight := hc.account.weight
  rw [AccountLemmas.pending_of_ne hne, heq, List.length_map, List.length_cons] at hweight
  omega

end

/-! ## Accepted texts -/

theorem declCount_eq {src : List Char} {c : Nat} {f : Parser}
    (h : parseWith (sufficientDepth src) .code none src = some (c, f)) : declCount src = c := by
  simp [declCount, h]

/-- An accepted text keeps its tokens exactly if the lexer makes no error token of it and no
run of comments that is too long, `parse_program` gets through all its declarations, and
every place fits a leaf. -/
theorem keepsTokens_iff {src : List Char} {r : ParseResult} (hr : parseSource src = some r)
    (hacc : r.errors = []) :
    KeepsTokens src r ↔
      Fine (tokensOf src) ∧ declCount src ≤ maxDeclLoop ∧ FitsLeaves (tokensOf src) := by
  obtain ⟨⟨c, f⟩, hrun, rfl⟩ := Option.map_eq_some_iff.mp hr
  obtain ⟨⟨c', f'⟩, hfree⟩ := parseWith_returns src 0 .code none
  have hcount : declCount src = c' := declCount_eq hfree
  obtain ⟨hcore, hblame⟩ := AccountLemmas.core_create src
  have hleaves : KeepsTokens src ⟨f.errors, f.items, f.hadError⟩ ↔
      f.leaves = (tokensOf src).map Token.leaf := Iff.rfl
  have hno : f.errors = [] := hacc
  rw [hleaves, hcount]
  rcases programRun_capped (Nat.zero_le _) hrun hfree with ⟨hc, hf, heof⟩ | ⟨hc, u, hu, hne, rfl⟩
  · obtain ⟨hcf, hbf⟩ := hf.reach_core hcore hblame
    cases hhad : f.hadError with
    | true =>
      have hfine : ¬ Fine (tokensOf src) := (hbf hhad).resolve_left (by simp [hno])
      exact iff_of_false (misses_of_flagged hcf hhad hno) (fun h => hfine h.1)
    | false =>
      obtain ⟨hkeep, hfine⟩ := keeps_of_unflagged hcf heof hhad
      rw [hkeep]
      exact ⟨fun h => ⟨hfine, hc, leaf32_eq_leaf.mp h⟩, fun h => leaf32_eq_leaf.mpr h.2.2⟩
  · obtain ⟨hcu, -⟩ := hu.reach_core hcore hblame
    have hmiss : u.leaves ≠ (tokensOf src).map Token.leaf := misses_of_pending hcu hne
    exact iff_of_false hmiss (fun h => by omega)

/-- A declaration with a comment in it keeps all its tokens. -/
theorem keepsTokens_iff_const :
    ∃ r, parseSource "a :: 1; // one".toList = some r ∧ r.errors = [] ∧
      (KeepsTokens "a :: 1; // one".toList r ↔
        Fine (tokensOf "a :: 1; // one".toList) ∧ declCount "a :: 1; // one".toList ≤ maxDeclLoop ∧
          FitsLeaves (tokensOf "a :: 1; // one".toList)) := by
  have hsome : ((parseSource "a :: 1; // one".toList).map fun r => r.errors.isEmpty) = some true := by
    decide +kernel
  obtain ⟨r, hr, herr⟩ := Option.map_eq_some_iff.mp hsome
  have hacc : r.errors = [] := by simpa using herr
  exact ⟨r, hr, hacc, keepsTokens_iff hr hacc⟩

/-- Behind an empty statement the body loop skips to the next `;`, and an error token on the
way leaves no trace but the flag. -/
theorem not_keepsTokens :
    ¬ ∀ src r, parseSource src = some r → r.errors = [] → KeepsTokens src r := by
  intro h
  have hlost : ((parseSource "f :: func()() \x7b ; $; \x7d".toList).map fun r =>
      (r.errors.isEmpty, decide (leavesOf r.children =
        (tokensOf "f :: func()() \x7b ; $; \x7d".toList).map Token.leaf))) = some (true, false) := by
    decide +kernel
  obtain ⟨r, hr, he⟩ := Option.map_eq_some_iff.mp hlost
  have hkeep := h _ r hr (by simpa using (Prod.mk.inj he).1)
  exact of_decide_eq_false (Prod.mk.inj he).2 hkeep

end Arche.Syntax
