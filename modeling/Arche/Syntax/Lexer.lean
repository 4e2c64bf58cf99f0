import Mathlib.Data.List.Basic
import Mathlib.Tactic.Tauto

/-!
# The lexer

`lexer_next_token` over a NUL-terminated buffer. A source text is the list of
its bytes, one `Char` each; the end of the list, or a NUL in it, is the
terminator. A token keeps its text instead of a pointer, so `length` is the
length of the text. The decoded value of a character literal is not kept: no
part of the parser reads it.
-/

namespace Arche.Syntax

/-- `TokenKind` of `lexer.h`. -/
inductive TokenKind where
  | eof | error
  | ident | number | string | charLit | comment
  | archetype | proc | map | system | query | func | let_ | for_ | if_ | else_ | in_
  | break_ | continue_ | move | own | copy | alias | return_ | use | eachField | run
  | enum | match_ | policy
  | lparen | rparen | lbrace | rbrace | lbracket | rbracket | comma | dot | dotdotdot
  | colon | semi | at | hash | hashModule | hashFile | hashForeign | hashLink
  | hashCflags | hashRun
  | eq | plusEq | minusEq | starEq | slashEq | percentEq
  | plus | minus | star | slash | percent
  | eqEq | bangEq | lt | gt | ltEq | gtEq
  | ampAmp | pipePipe | pipeGt
  | arrow | bang | question
  deriving DecidableEq, Repr

/-- `Token`. The `start` of an error token is a message literal, not a place in the
source: it has `start = 0` and the message as its text. -/
structure Token where
  kind : TokenKind
  start : Nat
  text : List Char
  line : Nat
  column : Nat
  deriving DecidableEq, Repr

def Token.length (t : Token) : Nat := t.text.length

/-- `Lexer`: `rest` are the bytes from `cur` on, `pos` is `cur - src`. -/
structure Lexer where
  rest : List Char
  pos : Nat
  line : Nat
  column : Nat
  deriving DecidableEq, Repr

def Lexer.init (src : List Char) : Lexer := ⟨src, 0, 1, 1⟩

def nul : Char := Char.ofNat 0

def Lexer.peek (l : Lexer) : Char := l.rest.headD nul

def Lexer.peekNext (l : Lexer) : Char := (l.rest.drop 1).headD nul

def Lexer.isAtEnd (l : Lexer) : Bool := l.peek == nul

/-- `advance`: one byte, unless at the end. -/
def Lexer.advance (l : Lexer) : Lexer :=
  match l.rest with
  | [] => l
  | c :: cs =>
    if c = nul then l
    else if c = '\n' then ⟨cs, l.pos + 1, l.line + 1, 1⟩
    else ⟨cs, l.pos + 1, l.line, l.column + 1⟩

def Lexer.advanceBy (l : Lexer) : Nat → Lexer
  | 0 => l
  | n + 1 => l.advance.advanceBy n

/-- `while (p(peek())) advance();` for a `p` that refuses NUL. -/
def Lexer.advanceWhile (p : Char → Bool) (l : Lexer) : Lexer :=
  l.advanceBy (l.rest.takeWhile fun c => p c && c != nul).length

def isSpace (c : Char) : Bool := c == ' ' || c == '\r' || c == '\t' || c == '\n'

def isIdentStart (c : Char) : Bool := c.isAlpha || c == '_'

def isIdentChar (c : Char) : Bool := c.isAlphanum || c == '_'

def isHexDigit (c : Char) : Bool :=
  c.isDigit || ('a' ≤ c && c ≤ 'f') || ('A' ≤ c && c ≤ 'F')

def skipWhitespace (l : Lexer) : Lexer := l.advanceWhile isSpace

/-- The token between `l` and the later lexer state `l'`. -/
def makeToken (kind : TokenKind) (l l' : Lexer) : Token × Lexer :=
  (⟨kind, l.pos, l.rest.take (l'.pos - l.pos), l.line, l.column⟩, l')

/-- `error_token`: reported at `l`, the lexer goes on at `l'`. -/
def errorToken (message : String) (l l' : Lexer) : Token × Lexer :=
  (⟨.error, 0, message.toList, l.line, l.column⟩, l')

def lexComment (l : Lexer) : Token × Lexer :=
  makeToken .comment l ((l.advanceBy 2).advanceWhile (· != '\n'))

/-- The bytes up to and including the closing `*` `/`, or to the end of the text. -/
def blockCommentLength : List Char → Nat
  | [] => 0
  | c :: cs =>
    if c = nul then 0
    else if c = '*' && cs.headD nul == '/' then 2
    else 1 + blockCommentLength cs

def lexBlockComment (l : Lexer) : Token × Lexer :=
  let l' := l.advanceBy 2
  makeToken .comment l (l'.advanceBy (blockCommentLength l'.rest))

def keywords : List (String × TokenKind) :=
  [("arche", .archetype), ("proc", .proc), ("map", .map), ("system", .system),
   ("query", .query), ("func", .func), ("policy", .policy), ("enum", .enum),
   ("match", .match_), ("let", .let_), ("for", .for_), ("if", .if_), ("else", .else_),
   ("in", .in_), ("break", .break_), ("continue", .continue_), ("move", .move),
   ("own", .own), ("copy", .copy), ("alias", .alias), ("return", .return_)]

def keywordKind (text : List Char) : TokenKind :=
  ((keywords.find? fun k => k.1.toList == text).map (·.2)).getD .ident

def lexIdentifier (l : Lexer) : Token × Lexer :=
  let l' := l.advanceWhile isIdentChar
  makeToken (keywordKind (l.rest.take (l'.pos - l.pos))) l l'

def isDigitOrSep (c : Char) : Bool := c.isDigit || c == '_'

/-- The digits of a `0x`, `0b` or `0o` literal, by its base character. -/
def isBaseDigit (n c : Char) : Bool :=
  (if n == 'x' || n == 'X' then isHexDigit c
   else if n == 'b' || n == 'B' then c == '0' || c == '1'
   else '0' ≤ c && c ≤ '7') || c == '_'

def lexNumber (l : Lexer) : Token × Lexer :=
  let n := l.peekNext
  if l.peek == '0' && (n == 'x' || n == 'X' || n == 'b' || n == 'B' || n == 'o' || n == 'O') then
    makeToken .number l ((l.advanceBy 2).advanceWhile (isBaseDigit n))
  else
    let l1 := l.advanceWhile isDigitOrSep
    if l1.peek == '.' && l1.peekNext.isDigit then
      makeToken .number l (l1.advance.advanceWhile isDigitOrSep)
    else makeToken .number l l1

def lexCharLit (l : Lexer) : Token × Lexer :=
  let l1 := l.advance
  let closed := fun (l2 : Lexer) =>
    if l2.peek != '\'' then errorToken "Unterminated character literal" l l2
    else makeToken .charLit l l2.advance
  if l1.peek == '\\' then closed (if l1.advance.isAtEnd then l1.advance else l1.advance.advance)
  else if l1.peek != '\'' && !l1.isAtEnd then closed l1.advance
  else errorToken "Empty character literal" l l1

/-- The bytes up to the closing quote, an escape counting as two. -/
def stringLength : List Char → Nat
  | [] => 0
  | c :: cs =>
    if c = '"' || c = nul then 0
    else if c = '\\' then
      match cs with
      | [] => 1
      | d :: ds => if d = nul then 1 else 2 + stringLength ds
    else 1 + stringLength cs

def lexString (l : Lexer) : Token × Lexer :=
  let l1 := l.advance
  let l2 := l1.advanceBy (stringLength l1.rest)
  if l2.isAtEnd then errorToken "Unterminated string" l l2
  else makeToken .string l l2.advance

def hashWords : List (String × TokenKind) :=
  [("import", .use), ("each_field", .eachField), ("module", .hashModule), ("file", .hashFile),
   ("foreign", .hashForeign), ("link", .hashLink), ("cflags", .hashCflags), ("run", .hashRun)]

def hashKind (word : List Char) : TokenKind :=
  ((hashWords.find? fun k => k.1.toList == word).map (·.2)).getD .hash

/-- `#word`: the marker and its word are one token. -/
def lexHash (l : Lexer) : Token × Lexer :=
  let l1 := l.advance
  let l2 := l1.advanceWhile isIdentChar
  makeToken (hashKind (l1.rest.take (l2.pos - l1.pos))) l l2

/-- A one-byte token, or a two-byte one when `follow` comes next. -/
def oneOrTwo (l : Lexer) (one : TokenKind) (follow : List (Char × TokenKind)) : Token × Lexer :=
  let l1 := l.advance
  match follow.find? fun f => f.1 == l1.peek with
  | some f => makeToken f.2 l l1.advance
  | none => makeToken one l l1

/-- The two operators whose single character is no token. -/
def onlyTwo (l : Lexer) (message : String) (follow : List (Char × TokenKind)) : Token × Lexer :=
  let l1 := l.advance
  match follow.find? fun f => f.1 == l1.peek with
  | some f => makeToken f.2 l l1.advance
  | none => errorToken message l l1

/-- The `switch` of `lexer_next_token`. -/
def lexPunct (l : Lexer) (c : Char) : Token × Lexer :=
  match c with
  | '(' => oneOrTwo l .lparen []
  | ')' => oneOrTwo l .rparen []
  | '{' => oneOrTwo l .lbrace []
  | '}' => oneOrTwo l .rbrace []
  | '[' => oneOrTwo l .lbracket []
  | ']' => oneOrTwo l .rbracket []
  | ',' => oneOrTwo l .comma []
  | '.' =>
    if l.advance.peek == '.' && l.advance.peekNext == '.' then
      makeToken .dotdotdot l (l.advanceBy 3)
    else makeToken .dot l l.advance
  | ':' => oneOrTwo l .colon []
  | ';' => oneOrTwo l .semi []
  | '@' => oneOrTwo l .at []
  | '?' => oneOrTwo l .question []
  | '#' => lexHash l
  | '+' => oneOrTwo l .plus [('=', .plusEq)]
  | '-' => oneOrTwo l .minus [('>', .arrow), ('=', .minusEq)]
  | '*' => oneOrTwo l .star [('=', .starEq)]
  | '/' => oneOrTwo l .slash [('=', .slashEq)]
  | '%' => oneOrTwo l .percent [('=', .percentEq)]
  | '=' => oneOrTwo l .eq [('=', .eqEq)]
  | '!' => oneOrTwo l .bang [('=', .bangEq)]
  | '<' => oneOrTwo l .lt [('=', .ltEq)]
  | '>' => oneOrTwo l .gt [('=', .gtEq)]
  | '&' => onlyTwo l "unexpected character (did you mean `&&`?)" [('&', .ampAmp)]
  | '|' =>
    onlyTwo l "unexpected character (did you mean `||` or `|>`?)" [('|', .pipePipe), ('>', .pipeGt)]
  | _ => errorToken "unexpected character" l l.advance

/-- `lexer_next_token` after `skip_whitespace`. -/
def lexToken (l : Lexer) : Token × Lexer :=
  let c := l.peek
  if l.isAtEnd then makeToken .eof l l
  else if c == '/' && l.peekNext == '*' then lexBlockComment l
  else if c == '/' && l.peekNext == '/' then lexComment l
  else if isIdentStart c then lexIdentifier l
  else if c.isDigit then lexNumber l
  else if c == '"' then lexString l
  else if c == '\'' then lexCharLit l
  else lexPunct l c

/-- `lexer_next_token`. -/
def lexerNextToken (l : Lexer) : Token × Lexer := lexToken (skipWhitespace l)

/-! ## What one call of the lexer consumes -/

namespace LexerLemmas

theorem advance_le (l : Lexer) : l.advance.rest.length ≤ l.rest.length := by
  unfold Lexer.advance
  split
  · exact Nat.le_refl _
  · next c cs h =>
    rw [h]
    split
    · exact Nat.le_of_eq (by rw [h])
    · split <;> simp

theorem advance_lt {l : Lexer} (h : l.isAtEnd = false) :
    l.advance.rest.length < l.rest.length := by
  obtain ⟨rest, pos, line, column⟩ := l
  cases rest with
  | nil => simp [Lexer.isAtEnd, Lexer.peek] at h
  | cons c cs =>
    have hc : ¬ c = nul := by simpa [Lexer.isAtEnd, Lexer.peek] using h
    simp only [Lexer.advance, hc, if_false]
    split <;> simp

theorem advanceBy_le (l : Lexer) (n : Nat) : (l.advanceBy n).rest.length ≤ l.rest.length := by
  induction n generalizing l with
  | zero => exact Nat.le_refl _
  | succ n ih => exact Nat.le_trans (ih l.advance) (advance_le l)

theorem advanceBy_lt {l : Lexer} {n : Nat} (h : l.isAtEnd = false) (hn : 0 < n) :
    (l.advanceBy n).rest.length < l.rest.length := by
  cases n with
  | zero => cases hn
  | succ n => exact Nat.lt_of_le_of_lt (advanceBy_le l.advance n) (advance_lt h)

theorem advanceWhile_le (p : Char → Bool) (l : Lexer) :
    (l.advanceWhile p).rest.length ≤ l.rest.length :=
  advanceBy_le l _

theorem advanceWhile_lt {p : Char → Bool} {l : Lexer} (h : l.isAtEnd = false)
    (hp : p l.peek = true) : (l.advanceWhile p).rest.length < l.rest.length := by
  apply advanceBy_lt h
  obtain ⟨rest, pos, line, column⟩ := l
  cases rest with
  | nil => simp [Lexer.isAtEnd, Lexer.peek] at h
  | cons c cs =>
    have hc : ¬ c = nul := by simpa [Lexer.isAtEnd, Lexer.peek] using h
    have hpc : p c = true := hp
    simp [hpc, hc]

/-- A step of the lexer that returns a token of the text: it is not the end token, and at
least one byte was consumed. -/
def Consumes (l : Lexer) (r : Token × Lexer) : Prop :=
  r.1.kind ≠ .eof ∧ r.2.rest.length < l.rest.length

theorem consumes_of_lt {kind : TokenKind} {l l' : Lexer} (hk : kind ≠ .eof)
    (h : l'.rest.length < l.rest.length) : Consumes l (makeToken kind l l') := ⟨hk, h⟩

theorem consumes_error {message : String} {l l' : Lexer}
    (h : l'.rest.length < l.rest.length) : Consumes l (errorToken message l l') :=
  ⟨by simp [errorToken], h⟩

theorem lookup_ne_eof {table : List (String × TokenKind)} {dflt : TokenKind} {text : List Char}
    (ht : ∀ k ∈ table, k.2 ≠ .eof) (hd : dflt ≠ .eof) :
    ((table.find? fun k => k.1.toList == text).map (·.2)).getD dflt ≠ .eof := by
  cases hf : table.find? fun k => k.1.toList == text with
  | none => simpa using hd
  | some k => simpa using ht k (List.mem_of_find?_eq_some hf)

theorem keywordKind_ne_eof (text : List Char) : keywordKind text ≠ .eof :=
  lookup_ne_eof (by decide) (by decide)

theorem hashKind_ne_eof (word : List Char) : hashKind word ≠ .eof :=
  lookup_ne_eof (by decide) (by decide)

theorem oneOrTwo_consumes {l : Lexer} {one : TokenKind} {follow : List (Char × TokenKind)}
    (h : l.isAtEnd = false) (h1 : one ≠ .eof) (h2 : ∀ f ∈ follow, f.2 ≠ .eof) :
    Consumes l (oneOrTwo l one follow) := by
  unfold oneOrTwo
  dsimp only
  split
  · next f hf =>
    exact consumes_of_lt (h2 f (List.mem_of_find?_eq_some hf))
      (Nat.lt_of_le_of_lt (advance_le _) (advance_lt h))
  · exact consumes_of_lt h1 (advance_lt h)

theorem onlyTwo_consumes {l : Lexer} {message : String} {follow : List (Char × TokenKind)}
    (h : l.isAtEnd = false) (h2 : ∀ f ∈ follow, f.2 ≠ .eof) :
    Consumes l (onlyTwo l message follow) := by
  unfold onlyTwo
  dsimp only
  split
  · next f hf =>
    exact consumes_of_lt (h2 f (List.mem_of_find?_eq_some hf))
      (Nat.lt_of_le_of_lt (advance_le _) (advance_lt h))
  · exact consumes_error (advance_lt h)

theorem lexHash_consumes {l : Lexer} (h : l.isAtEnd = false) : Consumes l (lexHash l) :=
  consumes_of_lt (hashKind_ne_eof _) (Nat.lt_of_le_of_lt (advanceWhile_le _ _) (advance_lt h))

theorem lexPunct_consumes {l : Lexer} (h : l.isAtEnd = false) (c : Char) :
    Consumes l (lexPunct l c) := by
  unfold lexPunct
  split
  case h_8 =>
    split
    · exact consumes_of_lt (by decide) (advanceBy_lt h (by decide))
    · exact consumes_of_lt (by decide) (advance_lt h)
  case h_13 => exact lexHash_consumes h
  case h_23 => exact onlyTwo_consumes h (by decide)
  case h_24 => exact onlyTwo_consumes h (by decide)
  case h_25 => exact consumes_error (advance_lt h)
  all_goals exact oneOrTwo_consumes h (by decide) (by decide)

theorem lexNumber_consumes {l : Lexer} (h : l.isAtEnd = false) (hd : l.peek.isDigit = true) :
    Consumes l (lexNumber l) := by
  have hfirst : (l.advanceWhile isDigitOrSep).rest.length < l.rest.length :=
    advanceWhile_lt h (by simp [isDigitOrSep, hd])
  unfold lexNumber
  dsimp only
  split
  · exact consumes_of_lt (by decide)
      (Nat.lt_of_le_of_lt (advanceWhile_le _ _) (advanceBy_lt h (by decide)))
  · split
    · exact consumes_of_lt (by decide)
        (Nat.lt_of_le_of_lt (Nat.le_trans (advanceWhile_le _ _) (advance_le _)) hfirst)
    · exact consumes_of_lt (by decide) hfirst

theorem lexString_consumes {l : Lexer} (h : l.isAtEnd = false) : Consumes l (lexString l) := by
  have hbody := Nat.lt_of_le_of_lt (advanceBy_le l.advance (stringLength l.advance.rest)) (advance_lt h)
  unfold lexString
  dsimp only
  split
  · exact consumes_error hbody
  · exact consumes_of_lt (by decide) (Nat.lt_of_le_of_lt (advance_le _) hbody)

theorem lexCharLit_consumes {l : Lexer} (h : l.isAtEnd = false) : Consumes l (lexCharLit l) := by
  have hclosed : ∀ l2 : Lexer, l2.rest.length < l.rest.length →
      Consumes l (if l2.peek != '\'' then errorToken "Unterminated character literal" l l2
        else makeToken .charLit l l2.advance) := by
    intro l2 hl2
    split
    · exact consumes_error hl2
    · exact consumes_of_lt (by decide) (Nat.lt_of_le_of_lt (advance_le _) hl2)
  have h1 := advance_lt h
  have h2 := Nat.lt_of_le_of_lt (advance_le l.advance) h1
  unfold lexCharLit
  dsimp only
  split
  · apply hclosed
    split
    · exact h2
    · exact Nat.lt_of_le_of_lt (advance_le _) h2
  · split
    · exact hclosed _ h2
    · exact consumes_error h1

theorem isIdentChar_of_start {c : Char} (h : isIdentStart c = true) : isIdentChar c = true := by
  simp only [isIdentStart, isIdentChar, Char.isAlphanum, Bool.or_eq_true] at *
  tauto

/-- At the end of the text the lexer returns the end token and stays; elsewhere it
consumes. -/
theorem lexToken_cases (l : Lexer) :
    (l.isAtEnd = true ∧ lexToken l = makeToken .eof l l) ∨
      (l.isAtEnd = false ∧ Consumes l (lexToken l)) := by
  cases h : l.isAtEnd with
  | true => exact Or.inl ⟨rfl, by simp [lexToken, h]⟩
  | false =>
    refine Or.inr ⟨rfl, ?_⟩
    unfold lexToken
    simp only [h, Bool.false_eq_true, if_false]
    split
    · exact consumes_of_lt (by decide)
        (Nat.lt_of_le_of_lt (advanceBy_le _ _) (advanceBy_lt h (by decide)))
    split
    · exact consumes_of_lt (by decide)
        (Nat.lt_of_le_of_lt (advanceWhile_le _ _) (advanceBy_lt h (by decide)))
    split
    · next hid =>
      exact consumes_of_lt (keywordKind_ne_eof _) (advanceWhile_lt h (isIdentChar_of_start hid))
    split
    · next hd => exact lexNumber_consumes h hd
    split
    · exact lexString_consumes h
    split
    · exact lexCharLit_consumes h
    · exact lexPunct_consumes h _

theorem lexerNextToken_le (l : Lexer) : (lexerNextToken l).2.rest.length ≤ l.rest.length := by
  unfold lexerNextToken
  rcases lexToken_cases (skipWhitespace l) with ⟨-, hl⟩ | ⟨-, hl⟩
  · rw [hl]
    exact advanceWhile_le _ _
  · exact Nat.le_trans (Nat.le_of_lt hl.2) (advanceWhile_le _ _)

theorem lexerNextToken_lt {l : Lexer} (h : (lexerNextToken l).1.kind ≠ .eof) :
    (lexerNextToken l).2.rest.length < l.rest.length := by
  unfold lexerNextToken at *
  rcases lexToken_cases (skipWhitespace l) with ⟨-, hl⟩ | ⟨-, hl⟩
  · exact absurd (by rw [hl]; rfl) h
  · exact Nat.lt_of_lt_of_le hl.2 (advanceWhile_le _ _)

theorem skipWhitespace_of_atEnd {l : Lexer} (h : l.isAtEnd = true) : skipWhitespace l = l := by
  obtain ⟨rest, pos, line, column⟩ := l
  cases rest with
  | nil => rfl
  | cons c cs =>
    have hc : c = nul := by simpa [Lexer.isAtEnd, Lexer.peek] using h
    simp [skipWhitespace, Lexer.advanceWhile, hc, Lexer.advanceBy]

/-- Once the end token was returned, it is returned again. -/
theorem lexerNextToken_eof {l : Lexer} (h : (lexerNextToken l).1.kind = .eof) :
    (lexerNextToken (lexerNextToken l).2).1.kind = .eof := by
  unfold lexerNextToken at *
  rcases lexToken_cases (skipWhitespace l) with ⟨hend, hl⟩ | ⟨-, hl⟩
  · rw [hl]
    have hstay : (makeToken .eof (skipWhitespace l) (skipWhitespace l)).2 = skipWhitespace l := rfl
    rw [hstay, skipWhitespace_of_atEnd hend, hl]
    rfl
  · exact absurd h hl.1

end LexerLemmas

/-! ## The tokens of a text -/

/-- The tokens before the end token, at most `n` of them. -/
def tokensUpTo : Nat → Lexer → List Token
  | 0, _ => []
  | n + 1, l =>
    let r := lexerNextToken l
    if r.1.kind = .eof then [] else r.1 :: tokensUpTo n r.2

/-- All tokens from `l` on, the end token excluded. Every token takes at least a byte. -/
def Lexer.tokens (l : Lexer) : List Token := tokensUpTo l.rest.length l

theorem tokensUpTo_of_le {n m : Nat} {l : Lexer} (hn : l.rest.length ≤ n) (hm : l.rest.length ≤ m) :
    tokensUpTo n l = tokensUpTo m l := by
  induction n generalizing m l with
  | zero =>
    have h0 : (lexerNextToken l).1.kind = .eof := by
      by_contra hne
      have := LexerLemmas.lexerNextToken_lt hne
      omega
    cases m with
    | zero => rfl
    | succ m => simp [tokensUpTo, h0]
  | succ n ih =>
    by_cases h0 : (lexerNextToken l).1.kind = .eof
    · cases m with
      | zero => simp [tokensUpTo, h0]
      | succ m => simp [tokensUpTo, h0]
    · have hlt := LexerLemmas.lexerNextToken_lt h0
      cases m with
      | zero => omega
      | succ m =>
        simp only [tokensUpTo, h0, if_false]
        rw [ih (m := m) (by omega) (by omega)]

theorem Lexer.tokens_of_eof {l : Lexer} (h : (lexerNextToken l).1.kind = .eof) : l.tokens = [] := by
  unfold Lexer.tokens
  cases l.rest.length with
  | zero => rfl
  | succ n => simp [tokensUpTo, h]

theorem Lexer.tokens_of_ne {l : Lexer} (h : (lexerNextToken l).1.kind ≠ .eof) :
    l.tokens = (lexerNextToken l).1 :: (lexerNextToken l).2.tokens := by
  have hlt := LexerLemmas.lexerNextToken_lt h
  have hsucc : tokensUpTo l.rest.length l = tokensUpTo (l.rest.length - 1 + 1) l :=
    tokensUpTo_of_le (Nat.le_refl _) (by omega)
  unfold Lexer.tokens
  rw [hsucc]
  simp only [tokensUpTo, h, if_false]
  rw [tokensUpTo_of_le (m := (lexerNextToken l).2.rest.length) (by omega) (Nat.le_refl _)]

end Arche.Syntax
