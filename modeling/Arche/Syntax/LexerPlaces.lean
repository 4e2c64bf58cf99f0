import Arche.Syntax.Lexer
import Mathlib.Tactic.Common

/-!
# How the lexer keeps its place

The lexer moves in three ways: `advance` passes a byte and counts, a byte already passed is
given back by hand (`cur--; column--`), and `...` bumps `cur` and `column` by two.

1. `nextToken` writes these moves out. `nextToken_eq`: it is `lexerNextToken`.
2. `Stands src l`: the line and the column of `l` are those of its place in `src`. Every move
   preserves it.
3. `lexToken_reads`: a token that is no error is the text that its call passed.
-/

namespace Arche.Syntax

/-! ## The moves of the lexer -/

/-- `cur--; column--;`, back over the byte `c`. -/
def Lexer.rewind (c : Char) (l : Lexer) : Lexer :=
  ⟨c :: l.rest, l.pos - 1, l.line, l.column - 1⟩

/-- `cur += 2; column += 2;`. -/
def Lexer.bump (l : Lexer) : Lexer :=
  ⟨l.rest.drop 2, l.pos + 2, l.line, l.column + 2⟩

/-- The `switch` at `l1`, one byte after `l`. -/
def lexSwitch (l l1 : Lexer) (c : Char) : Token × Lexer :=
  if c == '.' && (l1.peek == '.' && l1.peekNext == '.') then makeToken .dotdotdot l l1.bump
  else lexPunct l c

/-- `lexer_next_token` with its moves. No code fills `pending_tokens`. -/
def nextToken (start : Lexer) : Token × Lexer :=
  let l := skipWhitespace start
  let c := l.peek
  let l1 := l.advance
  if l.isAtEnd then makeToken .eof l l
  else if c == '/' && l.peekNext == '*' then lexBlockComment l
  else if c == '/' && l.peekNext == '/' then lexComment l
  else if isIdentStart c then lexIdentifier (l1.rewind c)
  else if c.isDigit then lexNumber (l1.rewind c)
  else if c == '"' then lexString (l1.rewind c)
  else if c == '\'' then lexCharLit (l1.rewind c)
  else lexSwitch l l1 c

theorem isAtEnd_eq_false {l : Lexer} (h : l.isAtEnd = false) :
    ∃ cs, l.rest = l.peek :: cs ∧ l.peek ≠ nul := by
  have hpeek : l.peek ≠ nul := by simpa [Lexer.isAtEnd] using h
  cases hrest : l.rest with
  | nil => exact absurd (by rw [Lexer.peek, hrest]; rfl) hpeek
  | cons c cs => exact ⟨cs, by rw [Lexer.peek, hrest]; rfl, hpeek⟩

theorem rewind_advance {l : Lexer} (hopen : l.isAtEnd = false) (hline : l.peek ≠ '\n') :
    l.advance.rewind l.peek = l := by
  obtain ⟨cs, hrest, hnul⟩ := isAtEnd_eq_false hopen
  unfold Lexer.advance
  rw [hrest]
  dsimp only
  rw [if_neg hnul, if_neg hline]
  simp [Lexer.rewind, ← hrest]

theorem bump_eq {l : Lexer} (h1 : l.peek = '.') (h2 : l.peekNext = '.') :
    l.bump = l.advance.advance := by
  obtain ⟨rest, pos, line, column⟩ := l
  match rest with
  | [] => cases h1
  | [_] => cases h2
  | c :: d :: cs =>
    obtain rfl : c = '.' := h1
    obtain rfl : d = '.' := h2
    rfl

theorem lexSwitch_eq (l : Lexer) : lexSwitch l l.advance l.peek = lexPunct l l.peek := by
  unfold lexSwitch
  split
  · next h =>
    obtain ⟨hc, h1, h2⟩ : l.peek = '.' ∧ l.advance.peek = '.' ∧ l.advance.peekNext = '.' := by
      simpa using h
    rw [hc, bump_eq h1 h2]
    show _ = if _ then _ else _
    rw [if_pos (by simp [h1, h2])]
    rfl
  · rfl

/-- The byte given back is no line end, so its column is the one it was read at. -/
theorem nextToken_eq (start : Lexer) : nextToken start = lexerNextToken start := by
  unfold nextToken lexerNextToken lexToken
  generalize skipWhitespace start = l
  cases hopen : l.isAtEnd with
  | true => simp [hopen]
  | false =>
    have hback : ∀ p : Char → Bool, p '\n' = false → p l.peek = true →
        l.advance.rewind l.peek = l := by
      intro p hp hc
      refine rewind_advance hopen fun heq => ?_
      rw [heq, hp] at hc
      cases hc
    simp only [hopen, Bool.false_eq_true, if_false, lexSwitch_eq]
    refine ite_congr rfl (fun _ => rfl) fun _ => ite_congr rfl (fun _ => rfl) fun _ => ?_
    refine ite_congr rfl (fun hc => ?_) fun _ => ?_
    · rw [hback isIdentStart (by decide) hc]
    refine ite_congr rfl (fun hc => ?_) fun _ => ?_
    · rw [hback Char.isDigit (by decide) hc]
    refine ite_congr rfl (fun hc => ?_) fun _ => ?_
    · rw [hback (· == '"') (by decide) hc]
    refine ite_congr rfl (fun hc => ?_) fun _ => rfl
    rw [hback (· == '\'') (by decide) hc]

/-! ## Places -/

/-- The line after the bytes `before`: one more than their newlines. -/
def lineAfter (before : List Char) : Nat := 1 + before.count '\n'

/-- The column after the bytes `before`: one more than those since the last newline. -/
def columnAfter (before : List Char) : Nat :=
  1 + (before.reverse.takeWhile (· != '\n')).length

/-- The lexer stands at a place of `src` and knows its line and column. -/
structure Stands (src : List Char) (l : Lexer) : Prop where
  pos_le : l.pos ≤ src.length
  rest : l.rest = src.drop l.pos
  line : l.line = lineAfter (src.take l.pos)
  column : l.column = columnAfter (src.take l.pos)

theorem Stands.init (src : List Char) : Stands src (Lexer.init src) :=
  ⟨Nat.zero_le _, rfl, by simp [Lexer.init, lineAfter], by simp [Lexer.init, columnAfter]⟩

theorem Stands.advance {src : List Char} {l : Lexer} (h : Stands src l) :
    Stands src l.advance := by
  unfold Lexer.advance
  split
  · exact h
  · next c cs hrest =>
    have hdrop : src.drop l.pos = c :: cs := by rw [← h.rest, hrest]
    have hlt : l.pos < src.length := by
      by_contra hge
      rw [List.drop_eq_nil_of_le (Nat.le_of_not_lt hge)] at hdrop
      cases hdrop
    have htake : src.take (l.pos + 1) = src.take l.pos ++ [c] := by
      rw [List.take_add, hdrop]
      rfl
    have hnext : cs = src.drop (l.pos + 1) := by
      rw [← List.drop_drop, hdrop]
      rfl
    split
    · exact h
    split
    · next hc =>
      subst hc
      exact ⟨hlt, hnext, by simp [htake, lineAfter, h.line, Nat.add_assoc],
        by simp [htake, columnAfter]⟩
    · next hc =>
      refine ⟨hlt, hnext, ?_, ?_⟩
      · rw [htake, lineAfter, List.count_append, List.count_singleton]
        simpa [hc, lineAfter] using h.line
      · simp [htake, columnAfter, h.column, hc, Nat.add_assoc]

theorem Stands.advanceBy {src : List Char} {l : Lexer} (h : Stands src l) (n : Nat) :
    Stands src (l.advanceBy n) := by
  induction n generalizing l with
  | zero => exact h
  | succ n ih => exact ih h.advance

theorem pos_advance_le (l : Lexer) : l.pos ≤ l.advance.pos := by
  unfold Lexer.advance
  split
  · exact Nat.le_refl _
  split
  · exact Nat.le_refl _
  split <;> exact Nat.le_succ _

theorem pos_advanceBy_le (l : Lexer) (n : Nat) : l.pos ≤ (l.advanceBy n).pos := by
  induction n generalizing l with
  | zero => exact Nat.le_refl _
  | succ n ih => exact Nat.le_trans (pos_advance_le l) (ih l.advance)

theorem advanceBy_add (l : Lexer) (m n : Nat) :
    l.advanceBy (m + n) = (l.advanceBy m).advanceBy n := by
  induction m generalizing l with
  | zero => rw [Nat.zero_add]; rfl
  | succ m ih => rw [Nat.succ_add]; exact ih l.advance

/-! ## What one call returns -/

/-- What a call that reads a token at `l` returns: the lexer moves on, and a token that is no
error is the text passed. -/
structure Reads (l : Lexer) (r : Token × Lexer) : Prop where
  moves : ∃ n, r.2 = l.advanceBy n
  line : r.1.line = l.line
  column : r.1.column = l.column
  start : r.1.kind ≠ .error → r.1.start = l.pos
  text : r.1.kind ≠ .error → r.1.text = l.rest.take (r.2.pos - l.pos)

theorem Reads.token (kind : TokenKind) {l l' : Lexer} (h : ∃ n, l' = l.advanceBy n) :
    Reads l (makeToken kind l l') :=
  ⟨h, rfl, rfl, fun _ => rfl, fun _ => rfl⟩

theorem Reads.error (message : String) {l l' : Lexer} (h : ∃ n, l' = l.advanceBy n) :
    Reads l (errorToken message l l') :=
  ⟨h, rfl, rfl, fun hk => absurd rfl hk, fun hk => absurd rfl hk⟩

theorem oneOrTwo_reads (l : Lexer) (one : TokenKind) (follow : List (Char × TokenKind)) :
    Reads l (oneOrTwo l one follow) := by
  unfold oneOrTwo
  dsimp only
  split
  · exact .token _ ⟨2, rfl⟩
  · exact .token _ ⟨1, rfl⟩

theorem onlyTwo_reads (l : Lexer) (message : String) (follow : List (Char × TokenKind)) :
    Reads l (onlyTwo l message follow) := by
  unfold onlyTwo
  dsimp only
  split
  · exact .token _ ⟨2, rfl⟩
  · exact .error _ ⟨1, rfl⟩

theorem lexHash_reads (l : Lexer) : Reads l (lexHash l) :=
  .token _ ⟨_ + 1, rfl⟩

theorem lexNumber_reads (l : Lexer) : Reads l (lexNumber l) := by
  unfold lexNumber
  dsimp only
  split
  · exact .token _ ⟨_, (advanceBy_add l 2 _).symm⟩
  split
  · exact .token _ ⟨_, (advanceBy_add l _ (_ + 1)).symm⟩
  · exact .token _ ⟨_, rfl⟩

theorem lexString_reads (l : Lexer) : Reads l (lexString l) := by
  unfold lexString
  dsimp only
  split
  · exact .error _ ⟨_ + 1, rfl⟩
  · exact .token _ ⟨_ + 1 + 1, (advanceBy_add l.advance _ 1).symm⟩

theorem lexCharLit_reads (l : Lexer) : Reads l (lexCharLit l) := by
  have hclosed : ∀ l2 : Lexer, (∃ n, l2 = l.advanceBy n) →
      Reads l (if l2.peek != '\'' then errorToken "Unterminated character literal" l l2
        else makeToken .charLit l l2.advance) := by
    rintro l2 ⟨n, rfl⟩
    split
    · exact .error _ ⟨n, rfl⟩
    · exact .token _ ⟨n + 1, (advanceBy_add l n 1).symm⟩
  unfold lexCharLit
  dsimp only
  split
  · apply hclosed
    split
    · exact ⟨2, rfl⟩
    · exact ⟨3, rfl⟩
  split
  · exact hclosed _ ⟨2, rfl⟩
  · exact .error _ ⟨1, rfl⟩

theorem lexPunct_reads (l : Lexer) (c : Char) : Reads l (lexPunct l c) := by
  unfold lexPunct
  split
  case h_8 =>
    split
    · exact .token _ ⟨3, rfl⟩
    · exact .token _ ⟨1, rfl⟩
  case h_13 => exact lexHash_reads l
  case h_23 => exact onlyTwo_reads l _ _
  case h_24 => exact onlyTwo_reads l _ _
  case h_25 => exact .error _ ⟨1, rfl⟩
  all_goals exact oneOrTwo_reads l _ _

theorem lexToken_reads (l : Lexer) : Reads l (lexToken l) := by
  unfold lexToken
  dsimp only
  split
  · exact .token _ ⟨0, rfl⟩
  split
  · exact .token _ ⟨_, (advanceBy_add l 2 _).symm⟩
  split
  · exact .token _ ⟨_, (advanceBy_add l 2 _).symm⟩
  split
  · exact .token _ ⟨_, rfl⟩
  split
  · exact lexNumber_reads l
  split
  · exact lexString_reads l
  split
  · exact lexCharLit_reads l
  · exact lexPunct_reads l _

end Arche.Syntax
