import Arche.Syntax.MaximalMunch

/-!
# Spans and positions of the tokens

Repeated `lexer_next_token` on a text, error tokens and the end token included. `partition`:
the tokens do not overlap, leave out only white space, are read again from their own text and
carry exact positions.
-/

namespace Arche.Syntax

/-- The lexer after `k` calls of `lexer_next_token` on `src`. -/
def lexerAfter (src : List Char) : Nat → Lexer
  | 0 => Lexer.init src
  | k + 1 => (nextToken (lexerAfter src k)).2

/-- The token that the call after `k` calls returns. -/
def tokenAt (src : List Char) (k : Nat) : Token := (nextToken (lexerAfter src k)).1

/-- Where that call begins to read, past the white space. -/
def placeAt (src : List Char) (k : Nat) : Nat := (skipWhitespace (lexerAfter src k)).pos

def Token.stop (t : Token) : Nat := t.start + t.length

section Runs
variable {src : List Char}

theorem tokenAt_eq (k : Nat) :
    tokenAt src k = (lexToken (skipWhitespace (lexerAfter src k))).1 := by
  rw [tokenAt, nextToken_eq, lexerNextToken]

theorem lexerAfter_succ (k : Nat) :
    lexerAfter src (k + 1) = (lexToken (skipWhitespace (lexerAfter src k))).2 := by
  rw [lexerAfter, nextToken_eq, lexerNextToken]

theorem stands_skip {l : Lexer} (h : Stands src l) : Stands src (skipWhitespace l) :=
  h.advanceBy _

/-- Every call preserves the exact position. -/
theorem stands_after (src : List Char) (k : Nat) : Stands src (lexerAfter src k) := by
  induction k with
  | zero => exact .init src
  | succ k ih =>
    obtain ⟨n, hn⟩ := (lexToken_reads (skipWhitespace (lexerAfter src k))).moves
    rw [lexerAfter_succ, hn]
    exact (stands_skip ih).advanceBy n

theorem placeAt_le (src : List Char) (k : Nat) : (lexerAfter src k).pos ≤ placeAt src k := pos_advanceBy_le _ _

theorem placeAt_le_next (src : List Char) (k : Nat) : placeAt src k ≤ (lexerAfter src (k + 1)).pos := by
  obtain ⟨n, hn⟩ := (lexToken_reads (skipWhitespace (lexerAfter src k))).moves
  rw [lexerAfter_succ, hn]
  exact pos_advanceBy_le _ n

theorem pos_mono {i j : Nat} (hij : i ≤ j) : (lexerAfter src i).pos ≤ (lexerAfter src j).pos := by
  induction hij with
  | refl => exact Nat.le_refl _
  | step _ ih => exact Nat.le_trans ih (Nat.le_trans (placeAt_le src _) (placeAt_le_next src _))

/-- The span of a token that is no error runs from the place to the next lexer. -/
theorem tokenAt_span {k : Nat} (hk : (tokenAt src k).kind ≠ .error) :
    (tokenAt src k).start = placeAt src k ∧
      (tokenAt src k).stop = (lexerAfter src (k + 1)).pos ∧
      (tokenAt src k).text = (src.drop (placeAt src k)).take (tokenAt src k).length := by
  have hreads := lexToken_reads (skipWhitespace (lexerAfter src k))
  rw [tokenAt_eq] at *
  have hstart := hreads.start hk
  have htext := hreads.text hk
  have hstand := stands_skip (stands_after src k)
  have hle := (stands_after src (k + 1)).pos_le
  have hplace := placeAt_le_next src k
  rw [hstand.rest, ← lexerAfter_succ] at htext
  have hlen : (lexToken (skipWhitespace (lexerAfter src k))).1.length
      = (lexerAfter src (k + 1)).pos - placeAt src k := by
    rw [Token.length, htext, List.length_take, List.length_drop]
    exact Nat.min_eq_left (Nat.sub_le_sub_right hle _)
  refine ⟨hstart, ?_, by rw [htext, hlen]; rfl⟩
  rw [Token.stop, hstart, hlen]
  exact Nat.add_sub_cancel' hplace

theorem tokenAt_placed (k : Nat) : (tokenAt src k).line = lineAfter (src.take (placeAt src k)) ∧
    (tokenAt src k).column = columnAfter (src.take (placeAt src k)) := by
  have hreads := lexToken_reads (skipWhitespace (lexerAfter src k))
  have hstand := stands_skip (stands_after src k)
  rw [tokenAt_eq, hreads.line, hreads.column]
  exact ⟨hstand.line, hstand.column⟩

/-- The bytes passed before a token are white space. -/
theorem gap_space (k : Nat) : ∀ c ∈ (src.drop (lexerAfter src k).pos).take
    (placeAt src k - (lexerAfter src k).pos), isSpace c = true := by
  obtain ⟨w, r, hrest, hw, hr⟩ := exists_run isSpace (lexerAfter src k).rest
  have hpos : placeAt src k = (lexerAfter src k).pos + w.length := (advanceWhile_run hrest hw hr).2
  rw [← (stands_after src k).rest, hpos, Nat.add_sub_cancel_left, hrest, List.take_left]
  exact fun c hc => (hw c hc).1

/-- What is read past the white space begins with none. -/
theorem skipWhitespace_idem (l l0 : Lexer)
    (h : l0.peek = (skipWhitespace l).peek ∨ l0.peek = nul) : skipWhitespace l0 = l0 := by
  obtain ⟨w, r, hrest, hw, hr⟩ := exists_run isSpace l.rest
  have hskip : (skipWhitespace l).rest = r := (advanceWhile_run hrest hw hr).1
  have hstop : isSpace l0.peek = false ∨ l0.peek = nul := by
    rcases h with h | h
    · rw [h, Lexer.peek, hskip]
      exact hr
    · exact .inr h
  have hlen : (l0.rest.takeWhile fun c => isSpace c && c != nul) = [] := by
    cases hr0 : l0.rest with
    | nil => rfl
    | cons d ds =>
      have hd : l0.peek = d := by rw [Lexer.peek, hr0]; rfl
      rw [hd] at hstop
      rcases hstop with hstop | rfl <;> simp_all
  rw [skipWhitespace, Lexer.advanceWhile, hlen]
  rfl

/-- Maximal munch: the text of a token alone is that token. -/
theorem tokenAt_alone {k : Nat} (hk : (tokenAt src k).kind ≠ .error) :
    (tokenAt (tokenAt src k).text 0).kind = (tokenAt src k).kind ∧
      (tokenAt (tokenAt src k).text 0).text = (tokenAt src k).text := by
  have hreads := lexToken_reads (skipWhitespace (lexerAfter src k))
  have htext := hreads.text (by rw [← tokenAt_eq]; exact hk)
  rw [← tokenAt_eq] at htext
  have hfirst : (Lexer.init (tokenAt src k).text).peek = (skipWhitespace (lexerAfter src k)).peek ∨
      (Lexer.init (tokenAt src k).text).peek = nul := by
    rw [Lexer.peek, Lexer.peek, Lexer.init, htext]
    cases (lexToken (skipWhitespace (lexerAfter src k))).2.pos
        - (skipWhitespace (lexerAfter src k)).pos with
    | zero => exact .inr rfl
    | succ n => cases (skipWhitespace (lexerAfter src k)).rest <;> simp
  have hskip := skipWhitespace_idem _ _ hfirst
  have halone := lexToken_alone (skipWhitespace (lexerAfter src k))
    (by rw [← tokenAt_eq]; exact hk) (Lexer.init (tokenAt src k).text) (by rw [← tokenAt_eq]; rfl)
  rw [tokenAt_eq 0]
  show (lexToken (skipWhitespace (Lexer.init _))).1.kind = _ ∧
    (lexToken (skipWhitespace (Lexer.init _))).1.text = _
  rw [hskip, tokenAt_eq] at *
  exact halone

/-- Before the end token every call moves on. -/
theorem tokenAt_moves {k : Nat} (hk : (tokenAt src k).kind ≠ .eof) :
    placeAt src k < (lexerAfter src (k + 1)).pos := by
  rw [lexerAfter_succ]
  refine lexToken_pos_lt (Bool.eq_false_iff.2 fun hend => hk ?_)
  rw [tokenAt_eq, lexToken, hend]
  rfl

/-- Without a NUL the end token stands at the end of the text. -/
theorem tokenAt_eof (hsrc : ∀ c ∈ src, c ≠ nul) {k : Nat} (hk : (tokenAt src k).kind = .eof) :
    (tokenAt src k).start = src.length := by
  rw [(tokenAt_span (by rw [hk]; decide)).1]
  have hstand := stands_skip (stands_after src k)
  refine Nat.le_antisymm hstand.pos_le (Nat.le_of_not_lt fun hlt => ?_)
  have hend : (skipWhitespace (lexerAfter src k)).isAtEnd = true := by
    rw [tokenAt_eq] at hk
    rcases LexerLemmas.lexToken_cases (skipWhitespace (lexerAfter src k)) with ⟨h, -⟩ | ⟨-, h, -⟩
    · exact h
    · exact absurd hk h
  have hrest : _ = src.drop (placeAt src k) := hstand.rest
  rw [List.drop_eq_getElem_cons hlt] at hrest
  rw [Lexer.isAtEnd, Lexer.peek, hrest, List.headD_cons] at hend
  exact hsrc _ (List.getElem_mem hlt) (eq_of_beq hend)

theorem exists_eof (src : List Char) : ∃ k, (tokenAt src k).kind = .eof := by
  by_contra hnone
  have hall : ∀ k, k ≤ (lexerAfter src k).pos := by
    intro k
    induction k with
    | zero => exact Nat.zero_le _
    | succ k ih =>
      have hmove := tokenAt_moves fun h => hnone ⟨k, h⟩
      have := placeAt_le src k
      omega
  have hle := (stands_after src (src.length + 1)).pos_le
  have := hall (src.length + 1)
  omega

end Runs

/-- Lexing cuts `src` into tokens: up to the end token they come in order, lie in the text and
do not overlap, only white space stands between two that follow each other, each is the same
token when it is read alone, and each carries its line and column. An error, which has a
message for its text, carries those of the place where it was met. -/
structure Partition (src : List Char) : Prop where
  inside : ∀ k, (tokenAt src k).kind ≠ .error → (tokenAt src k).stop ≤ src.length ∧
    (tokenAt src k).text = (src.drop (tokenAt src k).start).take (tokenAt src k).length
  increasing : ∀ i j, i < j → (tokenAt src i).kind ≠ .error → (tokenAt src i).kind ≠ .eof →
    (tokenAt src j).kind ≠ .error → (tokenAt src i).start < (tokenAt src j).start ∧
      (tokenAt src i).stop ≤ (tokenAt src j).start
  gaps : ∀ k, (tokenAt src k).kind ≠ .error → (tokenAt src (k + 1)).kind ≠ .error →
    ∀ c ∈ (src.drop (tokenAt src k).stop).take
      ((tokenAt src (k + 1)).start - (tokenAt src k).stop), isSpace c = true
  alone : ∀ k, (tokenAt src k).kind ≠ .error →
    (tokenAt (tokenAt src k).text 0).kind = (tokenAt src k).kind ∧
      (tokenAt (tokenAt src k).text 0).length = (tokenAt src k).length
  placed : ∀ k, (tokenAt src k).kind ≠ .error →
    (tokenAt src k).line = lineAfter (src.take (tokenAt src k).start) ∧
      (tokenAt src k).column = columnAfter (src.take (tokenAt src k).start)
  errors : ∀ k, (tokenAt src k).kind = .error →
    (tokenAt src k).line = lineAfter (src.take (placeAt src k)) ∧
      (tokenAt src k).column = columnAfter (src.take (placeAt src k))
  ends : ∃ k, (tokenAt src k).kind = .eof ∧ (tokenAt src k).start = src.length

end Arche.Syntax
