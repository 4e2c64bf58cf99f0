import Arche.Syntax.Lexer

/-!
# String tokens

What `lex_string` accepts: a quote, plain bytes and escapes, a quote. `Body` is what may stand
between the quotes.

1. `StringToken.text_eq`: the text of an accepted token has a body.
2. `StringToken.ofBody`: every body makes an accepted token.
-/

namespace Arche.Syntax

/-- Plain bytes and pairs of a backslash and the byte that it escapes. -/
inductive Body : List Char → Prop
  | nil : Body []
  | plain {c : Char} {cs : List Char} (quote : c ≠ '"') (slash : c ≠ '\\') (nonzero : c ≠ nul)
      (rest : Body cs) : Body (c :: cs)
  | escape {d : Char} {cs : List Char} (nonzero : d ≠ nul) (rest : Body cs) :
      Body ('\\' :: d :: cs)

/-- A string literal at which the lexer stands and which it accepts, in a text of bytes. -/
structure StringToken where
  lexer : Lexer
  bytes : ∀ c ∈ lexer.rest, c.toNat < 256
  opening : lexer.peek = '"'
  accepted : (lexString lexer).1.kind = .string

def StringToken.text (t : StringToken) : List Char := (lexString t.lexer).1.text

theorem advance_eq {l : Lexer} {c : Char} {cs : List Char} (hrest : l.rest = c :: cs)
    (hc : c ≠ nul) : l.advance.rest = cs ∧ l.advance.pos = l.pos + 1 := by
  unfold Lexer.advance
  rw [hrest]
  dsimp only
  rw [if_neg hc]
  split <;> exact ⟨rfl, rfl⟩

/-- Bytes that are no NUL are passed one by one. -/
theorem advanceBy_append {l : Lexer} {cs rest : List Char} (hrest : l.rest = cs ++ rest)
    (hcs : ∀ c ∈ cs, c ≠ nul) :
    (l.advanceBy cs.length).rest = rest ∧ (l.advanceBy cs.length).pos = l.pos + cs.length := by
  induction cs generalizing l with
  | nil => exact ⟨hrest, rfl⟩
  | cons c cs ih =>
    obtain ⟨hnext, hpos⟩ := advance_eq hrest (hcs c List.mem_cons_self)
    obtain ⟨hr, hp⟩ := ih hnext fun d hd => hcs d (List.mem_cons_of_mem _ hd)
    exact ⟨hr, by rw [List.length_cons, Lexer.advanceBy, hp, hpos]; omega⟩

theorem Body.ne_nul {cs : List Char} (h : Body cs) : ∀ c ∈ cs, c ≠ nul := by
  induction h with
  | nil => simp
  | plain _ _ hc _ ih => simpa using ⟨hc, ih⟩
  | escape hd _ ih => simpa using ⟨by decide, hd, ih⟩

theorem stringLength_stop {c : Char} (h : c = '"' ∨ c = nul) (cs : List Char) :
    stringLength (c :: cs) = 0 := by
  rw [stringLength.eq_def]
  exact if_pos (by simpa using h)

theorem stringLength_plain {c : Char} (quote : c ≠ '"') (slash : c ≠ '\\') (nonzero : c ≠ nul)
    (cs : List Char) : stringLength (c :: cs) = stringLength cs + 1 := by
  rw [stringLength.eq_def, Nat.add_comm]
  dsimp only
  rw [if_neg (by simp [quote, nonzero]), if_neg slash]

theorem stringLength_escape {d : Char} (nonzero : d ≠ nul) (cs : List Char) :
    stringLength ('\\' :: d :: cs) = stringLength cs + 2 := by
  rw [stringLength.eq_def, Nat.add_comm]
  exact if_neg nonzero

theorem Body.stringLength {cs : List Char} (h : Body cs) (rest : List Char) :
    stringLength (cs ++ '"' :: rest) = cs.length := by
  induction h with
  | nil => exact stringLength_stop (.inl rfl) rest
  | plain hq hs hn _ ih =>
    rw [List.cons_append, stringLength_plain hq hs hn, ih, List.length_cons]
  | escape hd _ ih =>
    rw [List.cons_append, List.cons_append, stringLength_escape hd, ih, List.length_cons,
      List.length_cons]

/-- Up to the place where the lexer stops there is a body, or the source ends there. -/
theorem body_or_end : ∀ cs : List Char,
    (∃ body rest, Body body ∧ cs = body ++ '"' :: rest) ∨
      ∃ body rest, (∀ c ∈ body, c ≠ nul) ∧ cs = body ++ rest ∧
        stringLength cs = body.length ∧ rest.headD nul = nul
  | [] => .inr ⟨[], [], by simp, rfl, rfl, rfl⟩
  | [c] => by
    by_cases hquote : c = '"'
    · exact .inl ⟨[], [], .nil, by rw [hquote]; rfl⟩
    by_cases hnul : c = nul
    · exact .inr ⟨[], [c], by simp, rfl, stringLength_stop (.inr hnul) [], hnul⟩
    refine .inr ⟨[c], [], by simpa using hnul, rfl, ?_, rfl⟩
    by_cases hslash : c = '\\'
    · subst hslash; rfl
    · exact stringLength_plain hquote hslash hnul []
  | c :: d :: cs => by
    by_cases hquote : c = '"'
    · exact .inl ⟨[], d :: cs, .nil, by rw [hquote]; rfl⟩
    by_cases hnul : c = nul
    · exact .inr ⟨[], c :: d :: cs, by simp, rfl, stringLength_stop (.inr hnul) _, hnul⟩
    by_cases hslash : c = '\\'
    · subst hslash
      by_cases hd : d = nul
      · subst hd
        exact .inr ⟨['\\'], nul :: cs, by simpa using hnul, rfl, rfl, rfl⟩
      rcases body_or_end cs with ⟨body, rest, hbody, rfl⟩ | ⟨body, rest, hbody, rfl, hlen, hend⟩
      · exact .inl ⟨'\\' :: d :: body, rest, .escape hd hbody, rfl⟩
      · refine .inr ⟨'\\' :: d :: body, rest, by simpa using ⟨hnul, hd, hbody⟩, rfl, ?_, hend⟩
        rw [stringLength_escape hd, hlen, List.length_cons, List.length_cons]
    · rcases body_or_end (d :: cs) with
        ⟨body, rest, hbody, heq⟩ | ⟨body, rest, hbody, heq, hlen, hend⟩
      · exact .inl ⟨c :: body, rest, .plain hquote hslash hnul hbody, by rw [heq]; rfl⟩
      · refine .inr ⟨c :: body, rest, by simpa using ⟨hnul, hbody⟩, by rw [heq]; rfl, ?_, hend⟩
        rw [stringLength_plain hquote hslash hnul, hlen, List.length_cons]

/-- The lexer on a quote, a body and a quote. -/
theorem lexString_body {l : Lexer} {body rest : List Char} (hbody : Body body)
    (hrest : l.rest = '"' :: (body ++ '"' :: rest)) :
    (lexString l).1.kind = .string ∧ (lexString l).1.text = '"' :: (body ++ ['"']) := by
  obtain ⟨h1, hpos1⟩ := advance_eq hrest (by decide)
  obtain ⟨h2, hpos2⟩ := advanceBy_append h1 hbody.ne_nul
  obtain ⟨-, hpos3⟩ := advance_eq h2 (by decide)
  have hopen : (l.advance.advanceBy body.length).isAtEnd = false := by
    rw [Lexer.isAtEnd, Lexer.peek, h2]
    rfl
  unfold lexString
  dsimp only
  rw [h1, hbody.stringLength, hopen]
  refine ⟨rfl, ?_⟩
  rw [if_neg Bool.false_ne_true, makeToken, hrest, hpos3, hpos2, hpos1]
  have htake : l.pos + 1 + body.length + 1 - l.pos = ('"' :: (body ++ ['"'])).length := by
    simp
    omega
  have hsplit : '"' :: (body ++ '"' :: rest) = '"' :: (body ++ ['"']) ++ rest := by simp
  dsimp only
  rw [htake, hsplit, List.take_left]

namespace StringToken

variable (t : StringToken)

theorem text_eq :
    ∃ body, Body body ∧ (∀ c ∈ body, c.toNat < 256) ∧ t.text = '"' :: (body ++ ['"']) := by
  obtain ⟨cs, hcs⟩ : ∃ cs, t.lexer.rest = '"' :: cs := by
    have hpeek := t.opening
    rw [Lexer.peek] at hpeek
    cases hrest : t.lexer.rest with
    | nil => rw [hrest] at hpeek; exact absurd hpeek (by decide)
    | cons c cs => rw [hrest] at hpeek; exact ⟨cs, by rw [← hpeek]; rfl⟩
  rcases body_or_end cs with ⟨body, rest, hbody, rfl⟩ | ⟨body, rest, hbody, rfl, hlen, hend⟩
  · exact ⟨body, hbody, fun c hc => t.bytes c (by simp [hcs, hc]), (lexString_body hbody hcs).2⟩
  · obtain ⟨h1, -⟩ := advance_eq hcs (by decide)
    obtain ⟨h2, -⟩ := advanceBy_append h1 hbody
    have hclosed : (t.lexer.advance.advanceBy body.length).isAtEnd = true := by
      rw [Lexer.isAtEnd, Lexer.peek, h2, hend]
      rfl
    have hkind := t.accepted
    unfold lexString at hkind
    dsimp only at hkind
    rw [h1, hlen, hclosed] at hkind
    cases hkind

/-- A source that is one literal with this body. -/
def ofBody (body : List Char) (h : Body body) (hbytes : ∀ c ∈ body, c.toNat < 256) :
    StringToken where
  lexer := Lexer.init ('"' :: (body ++ ['"']))
  bytes := by
    intro c hc
    simp only [Lexer.init, List.mem_cons, List.mem_append, List.mem_nil_iff, or_false] at hc
    rcases hc with rfl | hc | rfl
    · decide
    · exact hbytes c hc
    · decide
  opening := rfl
  accepted := (lexString_body h rfl).1

theorem ofBody_text {body : List Char} (h : Body body) (hbytes : ∀ c ∈ body, c.toNat < 256) :
    (ofBody body h hbytes).text = '"' :: (body ++ ['"']) := (lexString_body h rfl).2

end StringToken

end Arche.Syntax
