import Arche.Syntax.LexerPlaces
import Arche.Syntax.StringTokens

/-!
# Maximal munch

`lexToken_alone`: the text of a token, read alone, is that token again. Each function of the
lexer has a lemma of this form: `exists_run` cuts what its loop passes from what stops it, and
a specification says that the outcome stays the same when nothing follows.
-/

namespace Arche.Syntax

/-! ## A token alone -/

/-- Two outcomes of the lexer with the same kind and the same text. -/
def SameToken (r r' : Token × Lexer) : Prop := r'.1.kind = r.1.kind ∧ r'.1.text = r.1.text

/-- What `f` reads at `l`, unless an error, it reads again from the text of that token alone. -/
def ReadsAlone (f : Lexer → Token × Lexer) (l : Lexer) : Prop :=
  (f l).1.kind ≠ .error → ∀ l0 : Lexer, l0.rest = (f l).1.text → SameToken (f l) (f l0)

theorem makeToken_text (kind : TokenKind) {l l' : Lexer} {w r : List Char}
    (hrest : l.rest = w ++ r) (hpos : l'.pos = l.pos + w.length) :
    (makeToken kind l l').1.text = w := by
  rw [makeToken, hrest, hpos, Nat.add_sub_cancel_left]
  exact List.take_left

/-- A function with a kind `k w` for every text `w` that it may read: what it reads does not
depend on what follows, as long as nothing follows that it would read too. -/
theorem ReadsAlone.of_spec {f : Lexer → Token × Lexer} {l : Lexer} (kind : TokenKind)
    (w : List Char) {r : List Char} (hrest : l.rest = w ++ r)
    (hspec : ∀ (l' : Lexer) (r' : List Char), (r' = r ∨ r' = []) → l'.rest = w ++ r' →
      (f l').1.kind = kind ∧ (f l').1.text = w) : ReadsAlone f l := by
  intro _ l0 h0
  obtain ⟨hk, ht⟩ := hspec l r (.inl rfl) hrest
  rw [ht] at h0
  obtain ⟨hk0, ht0⟩ := hspec l0 [] (.inr rfl) (by rw [h0, List.append_nil])
  exact ⟨by rw [hk, hk0], by rw [ht, ht0]⟩

/-- The bytes that a loop over `p` passes, and what stops it. -/
theorem exists_run (p : Char → Bool) (cs : List Char) :
    ∃ w r, cs = w ++ r ∧ (∀ c ∈ w, p c = true ∧ c ≠ nul) ∧
      (p (r.headD nul) = false ∨ r.headD nul = nul) := by
  induction cs with
  | nil => exact ⟨[], [], rfl, by simp, .inr rfl⟩
  | cons c cs ih =>
    by_cases hc : p c = true ∧ c ≠ nul
    · obtain ⟨w, r, rfl, hw, hr⟩ := ih
      exact ⟨c :: w, r, rfl, by simpa using ⟨hc, hw⟩, hr⟩
    · refine ⟨[], c :: cs, rfl, by simp, ?_⟩
      cases hp : p c with
      | false => exact .inl hp
      | true => exact .inr (by_contra fun hne => hc ⟨hp, hne⟩)

theorem advanceWhile_run {p : Char → Bool} {l : Lexer} {w r : List Char}
    (hrest : l.rest = w ++ r) (hw : ∀ c ∈ w, p c = true ∧ c ≠ nul)
    (hr : p (r.headD nul) = false ∨ r.headD nul = nul) :
    (l.advanceWhile p).rest = r ∧ (l.advanceWhile p).pos = l.pos + w.length := by
  have hlen : (l.rest.takeWhile fun c => p c && c != nul) = w := by
    rw [hrest, List.takeWhile_append_of_pos fun c hc => by simpa using hw c hc]
    cases r with
    | nil => simp
    | cons d r =>
      have hd : (p d && d != nul) = false := by
        rcases hr with h | h
        · rw [show p d = false from h, Bool.false_and]
        · rw [show d = nul from h]; simp
      simp [hd]
  rw [Lexer.advanceWhile, hlen]
  exact advanceBy_append hrest fun c hc => (hw c hc).2

/-- The stop of a loop stays one when nothing follows. -/
theorem stop_or {p : Char → Bool} {r r' : List Char}
    (hr : p (r.headD nul) = false ∨ r.headD nul = nul) (hr' : r' = r ∨ r' = []) :
    p (r'.headD nul) = false ∨ r'.headD nul = nul := by
  rcases hr' with rfl | rfl
  · exact hr
  · exact .inr rfl

theorem lexIdentifier_alone (l : Lexer) : ReadsAlone lexIdentifier l := by
  obtain ⟨w, r, hrest, hw, hr⟩ := exists_run isIdentChar l.rest
  refine .of_spec (keywordKind w) w hrest fun l' r' hr' hrest' => ?_
  have htext := makeToken_text .ident hrest' (advanceWhile_run hrest' hw (stop_or hr hr')).2
  exact ⟨congrArg keywordKind htext, htext⟩

theorem lexHash_alone {l : Lexer} {cs : List Char} (hl : l.rest = '#' :: cs) :
    ReadsAlone lexHash l := by
  obtain ⟨w, r, rfl, hw, hr⟩ := exists_run isIdentChar cs
  refine .of_spec (hashKind w) ('#' :: w) hl fun l' r' hr' hrest' => ?_
  obtain ⟨h1, hp1⟩ := advance_eq hrest' (by decide)
  obtain ⟨-, hp2⟩ := advanceWhile_run h1 hw (stop_or hr hr')
  have hword := makeToken_text .ident h1 hp2
  refine ⟨congrArg hashKind hword, makeToken_text _ hrest' ?_⟩
  rw [hp2, hp1, List.length_cons]
  omega

theorem advanceBy_pair {l : Lexer} {c d : Char} {cs : List Char} (hrest : l.rest = c :: d :: cs)
    (hc : c ≠ nul) (hd : d ≠ nul) :
    (l.advanceBy 2).rest = cs ∧ (l.advanceBy 2).pos = l.pos + 2 := by
  have hcs : ∀ e ∈ [c, d], e ≠ nul := by simpa using ⟨hc, hd⟩
  exact advanceBy_append hrest hcs

theorem lexComment_alone {l : Lexer} {c d : Char} {cs : List Char} (hl : l.rest = c :: d :: cs)
    (hc : c ≠ nul) (hd : d ≠ nul) : ReadsAlone lexComment l := by
  obtain ⟨w, r, rfl, hw, hr⟩ := exists_run (· != '\n') cs
  refine .of_spec .comment (c :: d :: w) hl fun l' r' hr' hrest' =>
    ⟨rfl, makeToken_text _ hrest' ?_⟩
  obtain ⟨h2, hp2⟩ := advanceBy_pair hrest' hc hd
  have hstop := stop_or (p := (· != '\n')) hr hr'
  rw [(advanceWhile_run h2 hw hstop).2, hp2, List.length_cons, List.length_cons]
  omega

/-- The bytes that the loop of a block comment passes are passed again when they are all. -/
theorem blockComment_split (cs : List Char) : ∃ w r, cs = w ++ r ∧ (∀ c ∈ w, c ≠ nul) ∧
    ∀ r', (r' = r ∨ r' = []) → blockCommentLength (w ++ r') = w.length := by
  induction cs with
  | nil => exact ⟨[], [], rfl, by simp, by rintro _ (rfl | rfl) <;> rfl⟩
  | cons c cs ih =>
    by_cases hnul : c = nul
    · subst hnul
      exact ⟨[], nul :: cs, rfl, by simp, by rintro _ (rfl | rfl) <;> rfl⟩
    by_cases hclose : c = '*' ∧ cs.headD nul = '/'
    · obtain ⟨rfl, hhead⟩ := hclose
      cases cs with
      | nil => exact absurd hhead (by decide)
      | cons d r =>
        obtain rfl : d = '/' := hhead
        exact ⟨['*', '/'], r, rfl, by simp [nul], fun _ _ => rfl⟩
    · obtain ⟨w, r, rfl, hw, hlen⟩ := ih
      refine ⟨c :: w, r, rfl, by simpa using ⟨hnul, hw⟩, fun r' hr' => ?_⟩
      have hopen : ¬ (c = '*' ∧ (w ++ r').headD nul = '/') := by
        rcases hr' with rfl | rfl
        · exact hclose
        · rintro ⟨hc, hhead⟩
          cases w with
          | nil => exact absurd hhead (by decide)
          | cons d w => exact hclose ⟨hc, hhead⟩
      rw [List.cons_append, blockCommentLength, if_neg hnul, if_neg (by simpa using hopen),
        hlen r' hr', List.length_cons, Nat.add_comm]

theorem lexBlockComment_alone {l : Lexer} {c d : Char} {cs : List Char}
    (hl : l.rest = c :: d :: cs) (hc : c ≠ nul) (hd : d ≠ nul) : ReadsAlone lexBlockComment l := by
  obtain ⟨w, r, rfl, hw, hlen⟩ := blockComment_split cs
  refine .of_spec .comment (c :: d :: w) hl fun l' r' hr' hrest' =>
    ⟨rfl, makeToken_text _ hrest' ?_⟩
  have hmark : l'.rest = c :: d :: (w ++ r') := hrest'
  obtain ⟨h2, hp2⟩ := advanceBy_pair hmark hc hd
  rw [h2, hlen r' hr', (advanceBy_append h2 hw).2, hp2, List.length_cons, List.length_cons]
  omega

theorem lexString_alone {l : Lexer} {cs : List Char} (hl : l.rest = '"' :: cs) :
    ReadsAlone lexString l := by
  rcases body_or_end cs with ⟨body, rest, hbody, rfl⟩ | ⟨body, rest, hbody, rfl, hlen, hend⟩
  · refine .of_spec .string ('"' :: (body ++ ['"'])) (r := rest) (by simpa using hl)
      fun l' r' _ hrest' => lexString_body hbody (by simpa using hrest')
  · intro hk
    obtain ⟨h1, -⟩ := advance_eq hl (by decide)
    obtain ⟨h2, -⟩ := advanceBy_append h1 hbody
    have hclosed : (l.advance.advanceBy body.length).isAtEnd = true := by
      rw [Lexer.isAtEnd, Lexer.peek, h2, hend]
      rfl
    refine absurd ?_ hk
    unfold lexString
    dsimp only
    rw [h1, hlen, hclosed]
    rfl

/-- A character literal: an escape or a plain byte between two quotes. -/
theorem lexCharLit_spec {l : Lexer} {mid r : List Char} (hl : l.rest = '\'' :: (mid ++ '\'' :: r))
    (hmid : (∃ d, mid = ['\\', d] ∧ d ≠ nul) ∨
      ∃ d, mid = [d] ∧ d ≠ '\\' ∧ d ≠ '\'' ∧ d ≠ nul) :
    (lexCharLit l).1.kind = .charLit ∧ (lexCharLit l).1.text = '\'' :: (mid ++ ['\'']) := by
  obtain ⟨h1, hp1⟩ := advance_eq hl (by decide)
  rcases hmid with ⟨d, rfl, hd⟩ | ⟨d, rfl, hslash, hquote, hd⟩
  · obtain ⟨h2, hp2⟩ := advance_eq h1 (by decide)
    obtain ⟨h3, hp3⟩ := advance_eq h2 hd
    obtain ⟨-, hp4⟩ := advance_eq h3 (by decide)
    have hopen : l.advance.advance.isAtEnd = false := by simp [Lexer.isAtEnd, Lexer.peek, h2, hd]
    have hval : lexCharLit l = makeToken .charLit l l.advance.advance.advance.advance := by
      simp [lexCharLit, Lexer.peek, h1, h3, hopen]
    rw [hval]
    exact ⟨rfl, makeToken_text _ (r := r) (by simpa using hl) (by simp [hp4, hp3, hp2, hp1])⟩
  · obtain ⟨h2, hp2⟩ := advance_eq h1 hd
    obtain ⟨-, hp3⟩ := advance_eq h2 (by decide)
    have hopen : l.advance.isAtEnd = false := by simp [Lexer.isAtEnd, Lexer.peek, h1, hd]
    have hval : lexCharLit l = makeToken .charLit l l.advance.advance.advance := by
      simp [lexCharLit, Lexer.peek, h1, h2, hopen, hslash, hquote]
    rw [hval]
    exact ⟨rfl, makeToken_text _ (r := r) (by simpa using hl) (by simp [hp3, hp2, hp1])⟩

theorem lexCharLit_closed {l l2 : Lexer}
    (hk : (if l2.peek != '\'' then errorToken "Unterminated character literal" l l2
      else makeToken .charLit l l2.advance).1.kind ≠ .error) : ∃ r, l2.rest = '\'' :: r := by
  split at hk
  · exact absurd rfl hk
  · next h =>
    have hquote : l2.peek = '\'' := by simpa using h
    obtain ⟨r, hr, -⟩ := isAtEnd_eq_false (l := l2) (by rw [Lexer.isAtEnd, hquote]; rfl)
    exact ⟨r, by rw [hr, hquote]⟩

theorem lexCharLit_alone {l : Lexer} {cs : List Char} (hl : l.rest = '\'' :: cs) :
    ReadsAlone lexCharLit l := by
  intro hk
  obtain ⟨h1, -⟩ := advance_eq hl (by decide)
  obtain ⟨mid, r, rfl, hmid⟩ : ∃ mid r, cs = mid ++ '\'' :: r ∧
      ((∃ d, mid = ['\\', d] ∧ d ≠ nul) ∨ ∃ d, mid = [d] ∧ d ≠ '\\' ∧ d ≠ '\'' ∧ d ≠ nul) := by
    unfold lexCharLit at hk
    dsimp only at hk
    split at hk
    · next hesc =>
      have hslash : l.advance.peek = '\\' := by simpa using hesc
      obtain ⟨ds, hds, hnul⟩ := isAtEnd_eq_false (l := l.advance)
        (by rw [Lexer.isAtEnd, hslash]; rfl)
      obtain ⟨h2, -⟩ := advance_eq hds hnul
      obtain ⟨r, hr⟩ := lexCharLit_closed hk
      split at hr
      · next hend =>
        rw [Lexer.isAtEnd, Lexer.peek, hr] at hend
        cases hend
      · next hopen =>
        obtain ⟨es, hes, hd⟩ := isAtEnd_eq_false (by simpa using hopen)
        rw [(advance_eq hes hd).1] at hr
        refine ⟨['\\', l.advance.advance.peek], r, ?_, .inl ⟨_, rfl, hd⟩⟩
        rw [← h1, hds, hslash, ← h2, hes, hr]
        rfl
    split at hk
    · next hslash hplain =>
      obtain ⟨hquote, hopen⟩ : l.advance.peek ≠ '\'' ∧ l.advance.isAtEnd = false := by
        simpa using hplain
      obtain ⟨ds, hds, hnul⟩ := isAtEnd_eq_false hopen
      obtain ⟨r, hr⟩ := lexCharLit_closed hk
      rw [(advance_eq hds hnul).1] at hr
      refine ⟨[l.advance.peek], r, ?_, .inr ⟨_, rfl, by simpa using hslash, hquote, hnul⟩⟩
      rw [← h1, hds, hr]
      rfl
    · exact absurd rfl hk
  refine ReadsAlone.of_spec .charLit ('\'' :: (mid ++ ['\''])) (r := r)
    (by simpa using hl) (fun l' r' _ hrest' => ?_) hk
  exact lexCharLit_spec (r := r') (by simpa using hrest') hmid

/-! ### Numbers -/

theorem lexNumber_based {l : Lexer} {n : Char} {w r : List Char}
    (hl : l.rest = '0' :: n :: (w ++ r))
    (hn : (n == 'x' || n == 'X' || n == 'b' || n == 'B' || n == 'o' || n == 'O') = true)
    (hw : ∀ c ∈ w, isBaseDigit n c = true ∧ c ≠ nul)
    (hr : isBaseDigit n (r.headD nul) = false ∨ r.headD nul = nul) :
    (lexNumber l).1.kind = .number ∧ (lexNumber l).1.text = '0' :: n :: w := by
  have hnul : n ≠ nul := by rintro rfl; exact absurd hn (by decide)
  obtain ⟨h2, hp2⟩ := advanceBy_pair hl (by decide) hnul
  have hval : lexNumber l = makeToken .number l ((l.advanceBy 2).advanceWhile (isBaseDigit n)) := by
    simp only [lexNumber, Lexer.peek, Lexer.peekNext, hl, List.headD_cons, List.drop_succ_cons,
      List.drop_zero, hn]
    rfl
  rw [hval]
  refine ⟨rfl, makeToken_text _ hl ?_⟩
  rw [(advanceWhile_run h2 hw hr).2, hp2, List.length_cons, List.length_cons]
  omega

/-- The text is not a `0` before the letter of a base. -/
def NoBase (cs : List Char) : Prop :=
  (cs.headD nul == '0' && ((cs.drop 1).headD nul == 'x' || (cs.drop 1).headD nul == 'X' ||
    (cs.drop 1).headD nul == 'b' || (cs.drop 1).headD nul == 'B' ||
    (cs.drop 1).headD nul == 'o' || (cs.drop 1).headD nul == 'O')) = false

theorem lexNumber_whole {l : Lexer} {w r : List Char} (hl : l.rest = w ++ r)
    (hbase : NoBase l.rest) (hw : ∀ c ∈ w, isDigitOrSep c = true ∧ c ≠ nul)
    (hr : isDigitOrSep (r.headD nul) = false ∨ r.headD nul = nul)
    (hdot : ¬ (r.headD nul = '.' ∧ ((r.drop 1).headD nul).isDigit = true)) :
    (lexNumber l).1.kind = .number ∧ (lexNumber l).1.text = w := by
  obtain ⟨h1, hp1⟩ := advanceWhile_run hl hw hr
  have hval : lexNumber l = makeToken .number l (l.advanceWhile isDigitOrSep) := by
    unfold lexNumber
    dsimp only
    rw [Lexer.peek, Lexer.peekNext, if_neg (by rw [show _ = false from hbase]; decide),
      Lexer.peek, Lexer.peekNext, h1, if_neg (by simpa using hdot)]
  rw [hval]
  exact ⟨rfl, makeToken_text _ hl hp1⟩

theorem lexNumber_fraction {l : Lexer} {w w' r : List Char} (hl : l.rest = w ++ '.' :: (w' ++ r))
    (hbase : NoBase l.rest) (hw : ∀ c ∈ w, isDigitOrSep c = true ∧ c ≠ nul)
    (hdigit : (w'.headD nul).isDigit = true) (hw' : ∀ c ∈ w', isDigitOrSep c = true ∧ c ≠ nul)
    (hr : isDigitOrSep (r.headD nul) = false ∨ r.headD nul = nul) :
    (lexNumber l).1.kind = .number ∧ (lexNumber l).1.text = w ++ '.' :: w' := by
  obtain ⟨h1, hp1⟩ := advanceWhile_run hl hw (.inl rfl)
  obtain ⟨h2, hp2⟩ := advance_eq h1 (by decide)
  have hnext : ((w' ++ r).headD nul).isDigit = true := by
    cases w' with
    | nil => exact absurd hdigit (by decide)
    | cons d w' => exact hdigit
  have hval : lexNumber l = makeToken .number l
      ((l.advanceWhile isDigitOrSep).advance.advanceWhile isDigitOrSep) := by
    unfold lexNumber
    dsimp only
    rw [Lexer.peek, Lexer.peekNext, if_neg (by rw [show _ = false from hbase]; decide),
      Lexer.peek, Lexer.peekNext, h1, if_pos (by simpa using hnext)]
  rw [hval]
  refine ⟨rfl, makeToken_text _ (r := r) (by simpa using hl) ?_⟩
  rw [(advanceWhile_run h2 hw' hr).2, hp2, hp1, List.length_append, List.length_cons]
  omega

theorem NoBase.of_append {w r r' : List Char} (h : NoBase (w ++ r)) (hr' : r' = r ∨ r' = []) :
    NoBase (w ++ r') := by
  rcases hr' with rfl | rfl
  · exact h
  rw [List.append_nil]
  match w with
  | [] => rfl
  | [c] => simp [NoBase, nul]
  | _ :: _ :: _ => exact h

theorem lexNumber_alone (l : Lexer) : ReadsAlone lexNumber l := by
  by_cases hbase : NoBase l.rest
  · obtain ⟨w, r, hl, hw, hr⟩ := exists_run isDigitOrSep l.rest
    by_cases hdot : r.headD nul = '.' ∧ ((r.drop 1).headD nul).isDigit = true
    · obtain ⟨cs, rfl⟩ : ∃ cs, r = '.' :: cs := by
        cases r with
        | nil => exact absurd hdot.1 (by decide)
        | cons c cs => exact ⟨cs, by rw [show c = '.' from hdot.1]⟩
      obtain ⟨w', r, rfl, hw', hr'⟩ := exists_run isDigitOrSep cs
      have hdigit : (w'.headD nul).isDigit = true := by
        cases w' with
        | cons d w' => exact hdot.2
        | nil =>
          have hd : (r.headD nul).isDigit = true := hdot.2
          rcases hr' with h | h
          · rw [isDigitOrSep, hd] at h
            cases h
          · rw [h] at hd
            exact absurd hd (by decide)
      refine .of_spec .number (w ++ '.' :: w') (r := r) (by simpa using hl)
        fun l' r' hor hrest' => ?_
      refine lexNumber_fraction (r := r') (by simpa using hrest') ?_ hw hdigit hw' (stop_or hr' hor)
      rw [hrest']
      exact NoBase.of_append (r := r) (by simpa [hl] using hbase) hor
    · refine .of_spec .number w hl fun l' r' hor hrest' => ?_
      refine lexNumber_whole hrest' ?_ hw (stop_or hr hor) ?_
      · rw [hrest']
        exact NoBase.of_append (by rw [← hl]; exact hbase) hor
      · rcases hor with rfl | rfl
        · exact hdot
        · exact fun h => absurd h.1 (by decide)
  · obtain ⟨n, cs, hl, hn⟩ : ∃ n cs, l.rest = '0' :: n :: cs ∧
        (n == 'x' || n == 'X' || n == 'b' || n == 'B' || n == 'o' || n == 'O') = true := by
      rcases hrest : l.rest with _ | ⟨c, _ | ⟨n, cs⟩⟩
      · rw [hrest] at hbase
        exact absurd rfl hbase
      · rw [hrest] at hbase
        exact absurd (by simp [NoBase, nul]) hbase
      · rw [hrest] at hbase
        obtain ⟨hc, hn⟩ := Bool.and_eq_true_iff.1 (Bool.not_eq_false _ ▸ hbase)
        exact ⟨n, cs, by rw [show c = '0' by simpa using hc], hn⟩
    obtain ⟨w, r, rfl, hw, hr⟩ := exists_run (isBaseDigit n) cs
    exact .of_spec .number ('0' :: n :: w) hl fun l' r' hor hrest' =>
      lexNumber_based hrest' hn hw (stop_or hr hor)

/-! ### Operators -/

theorem oneOrTwo_alone {l : Lexer} {c : Char} {cs : List Char} (hl : l.rest = c :: cs)
    (hc : c ≠ nul) (one : TokenKind) {follow : List (Char × TokenKind)}
    (hfollow : (follow.find? fun f => f.1 == nul) = none) :
    ReadsAlone (fun l' => oneOrTwo l' one follow) l := by
  have hone : ∀ (l' : Lexer) (r' : List Char), l'.rest = c :: r' →
      (follow.find? fun f => f.1 == r'.headD nul) = none →
      (oneOrTwo l' one follow).1.kind = one ∧ (oneOrTwo l' one follow).1.text = [c] := by
    intro l' r' hrest' hnone
    obtain ⟨h1, hp1⟩ := advance_eq hrest' hc
    unfold oneOrTwo
    dsimp only
    rw [Lexer.peek, h1, hnone]
    exact ⟨rfl, makeToken_text one (w := [c]) hrest' hp1⟩
  cases hfind : follow.find? fun f => f.1 == cs.headD nul with
  | none =>
    refine .of_spec one [c] hl fun l' r' hor hrest' => hone l' r' hrest' ?_
    rcases hor with rfl | rfl
    · exact hfind
    · exact hfollow
  | some f =>
    obtain ⟨d, r, rfl, hd⟩ : ∃ d r, cs = d :: r ∧ d ≠ nul := by
      have hne : cs.headD nul ≠ nul := fun heq => by rw [heq, hfollow] at hfind; cases hfind
      cases cs with
      | nil => exact absurd rfl hne
      | cons d r => exact ⟨d, r, rfl, hne⟩
    refine .of_spec f.2 [c, d] hl fun l' r' _ hrest' => ?_
    obtain ⟨h1, hp1⟩ := advance_eq hrest' hc
    obtain ⟨-, hp2⟩ := advance_eq h1 hd
    have hfind' : (follow.find? fun f => f.1 == l'.advance.peek) = some f := by
      rw [Lexer.peek, h1]
      exact hfind
    dsimp only [oneOrTwo]
    rw [hfind']
    exact ⟨rfl, makeToken_text f.2 (w := [c, d]) hrest' (by rw [hp2, hp1]; rfl)⟩

/-- Where no error comes out, `onlyTwo` is `oneOrTwo`. -/
theorem onlyTwo_eq {l : Lexer} {message : String} {follow : List (Char × TokenKind)}
    (h : (onlyTwo l message follow).1.kind ≠ .error ∨ (oneOrTwo l .error follow).1.kind ≠ .error) :
    onlyTwo l message follow = oneOrTwo l .error follow := by
  unfold onlyTwo oneOrTwo at *
  dsimp only at *
  cases hfind : follow.find? fun f => f.1 == l.advance.peek with
  | some f => rfl
  | none =>
    rw [hfind] at h
    rcases h with h | h <;> exact absurd rfl h

theorem onlyTwo_alone {l : Lexer} {c : Char} {cs : List Char} (hl : l.rest = c :: cs)
    (hc : c ≠ nul) (message : String) {follow : List (Char × TokenKind)}
    (hfollow : (follow.find? fun f => f.1 == nul) = none) :
    ReadsAlone (fun l' => onlyTwo l' message follow) l := by
  intro hk l0 h0
  have hone : onlyTwo l message follow = oneOrTwo l .error follow := onlyTwo_eq (.inl hk)
  dsimp only at *
  rw [hone] at hk h0 ⊢
  have hsame := oneOrTwo_alone hl hc .error hfollow hk l0 h0
  rw [onlyTwo_eq (.inr (by rw [hsame.1]; exact hk))]
  exact hsame

theorem dots_alone {l : Lexer} {cs : List Char} (hl : l.rest = '.' :: cs) :
    ReadsAlone (fun l' => lexPunct l' '.') l := by
  by_cases hdots : ∃ r, cs = '.' :: '.' :: r
  · obtain ⟨r, rfl⟩ := hdots
    refine .of_spec .dotdotdot ['.', '.', '.'] hl fun l' r' _ hrest' => ?_
    obtain ⟨h1, hp1⟩ := advance_eq hrest' (by decide)
    obtain ⟨-, hp3⟩ := advanceBy_pair h1 (by decide) (by decide)
    have hval : lexPunct l' '.' = makeToken .dotdotdot l' (l'.advanceBy 3) := by
      simp [lexPunct, Lexer.peek, Lexer.peekNext, h1]
    rw [hval]
    refine ⟨rfl, makeToken_text _ (w := ['.', '.', '.']) hrest' ?_⟩
    rw [show l'.advanceBy 3 = l'.advance.advanceBy 2 from rfl, hp3, hp1]
    rfl
  · refine .of_spec .dot ['.'] hl fun l' r' hor hrest' => ?_
    obtain ⟨h1, hp1⟩ := advance_eq hrest' (by decide)
    have hstop : ¬ (r'.headD nul = '.' ∧ (r'.drop 1).headD nul = '.') := by
      rintro ⟨hd, he⟩
      rcases hor with rfl | rfl
      · rcases r' with _ | ⟨d, _ | ⟨e, r⟩⟩
        · cases hd
        · cases he
        · exact hdots ⟨r, by rw [show d = '.' from hd, show e = '.' from he]⟩
      · cases hd
    have hval : lexPunct l' '.' = makeToken .dot l' l'.advance :=
      if_neg (by simpa [Lexer.peek, Lexer.peekNext, h1] using hstop)
    rw [hval]
    exact ⟨rfl, makeToken_text _ (w := ['.']) hrest' hp1⟩

/-- The `switch` by what its branches do. -/
theorem lexPunct_cases (l l' : Lexer) (c : Char) :
    (∃ one follow, (follow.find? fun f : Char × TokenKind => f.1 == nul) = none ∧
      lexPunct l c = oneOrTwo l one follow ∧ lexPunct l' c = oneOrTwo l' one follow) ∨
    (∃ message follow, (follow.find? fun f : Char × TokenKind => f.1 == nul) = none ∧
      lexPunct l c = onlyTwo l message follow ∧ lexPunct l' c = onlyTwo l' message follow) ∨
    c = '.' ∨ c = '#' ∨ (lexPunct l c).1.kind = .error := by
  unfold lexPunct
  split
  case h_8 => exact .inr (.inr (.inl rfl))
  case h_13 => exact .inr (.inr (.inr (.inl rfl)))
  case h_23 => exact .inr (.inl ⟨_, _, by decide, rfl, rfl⟩)
  case h_24 => exact .inr (.inl ⟨_, _, by decide, rfl, rfl⟩)
  case h_25 => exact .inr (.inr (.inr (.inr rfl)))
  all_goals exact .inl ⟨_, _, by decide, rfl, rfl⟩

theorem lexPunct_alone {l : Lexer} {c : Char} {cs : List Char} (hl : l.rest = c :: cs)
    (hc : c ≠ nul) : ReadsAlone (fun l' => lexPunct l' c) l := by
  intro hk l0 h0
  dsimp only at *
  rcases lexPunct_cases l l0 c with ⟨one, follow, hnul, h, h'⟩ | ⟨message, follow, hnul, h, h'⟩ |
    rfl | rfl | herr
  · rw [h] at hk h0 ⊢
    rw [h']
    exact oneOrTwo_alone hl hc one hnul hk l0 h0
  · rw [h] at hk h0 ⊢
    rw [h']
    exact onlyTwo_alone hl hc message hnul hk l0 h0
  · exact dots_alone hl hk l0 h0
  · exact lexHash_alone hl hk l0 h0
  · exact absurd herr hk

/-! ### The dispatch -/

theorem pos_advance_add (l : Lexer) :
    l.advance.pos + l.advance.rest.length = l.pos + l.rest.length := by
  unfold Lexer.advance
  split
  · rfl
  · next c cs hrest =>
    rw [hrest]
    split
    · rw [hrest]
    split <;> simp only [List.length_cons] <;> omega

theorem pos_advanceBy_add (l : Lexer) (n : Nat) :
    (l.advanceBy n).pos + (l.advanceBy n).rest.length = l.pos + l.rest.length := by
  induction n generalizing l with
  | zero => rfl
  | succ n ih => rw [Lexer.advanceBy, ih l.advance, pos_advance_add l]

/-- A call that returns a token of the text moves on. -/
theorem lexToken_pos_lt {l : Lexer} (hopen : l.isAtEnd = false) : l.pos < (lexToken l).2.pos := by
  rcases LexerLemmas.lexToken_cases l with ⟨hend, -⟩ | ⟨-, -, hlt⟩
  · rw [hopen] at hend
    cases hend
  · obtain ⟨n, hn⟩ := (lexToken_reads l).moves
    have := pos_advanceBy_add l n
    rw [hn] at hlt ⊢
    omega

theorem peekNext_take {l l0 : Lexer} {n : Nat} (h : l0.rest = l.rest.take n) :
    (1 ≤ n → l0.peek = l.peek ∧ (l0.peekNext = l.peekNext ∨ l0.peekNext = nul)) ∧
      (2 ≤ n → l0.peekNext = l.peekNext) := by
  unfold Lexer.peek Lexer.peekNext
  rw [h]
  match n, l.rest with
  | 0, _ => simp
  | 1, [] => simp
  | 1, c :: cs => simp
  | n + 2, [] => simp
  | n + 2, [c] => simp
  | n + 2, c :: d :: cs => simp

theorem pos_add_two_le {l : Lexer} {d : Char} (hopen : l.isAtEnd = false) (hd : l.peekNext = d)
    (hnul : d ≠ nul) (n : Nat) : l.pos + 2 ≤ ((l.advanceBy 2).advanceBy n).pos := by
  obtain ⟨cs, hrest, hc⟩ := isAtEnd_eq_false hopen
  rw [Lexer.peekNext, hrest] at hd
  cases cs with
  | nil => exact absurd hd.symm hnul
  | cons e cs =>
    obtain rfl : e = d := hd
    rw [← (advanceBy_pair hrest hc hnul).2]
    exact pos_advanceBy_le _ n

/-- The dispatch on the first byte `c` where no comment starts. -/
def lexByFirst (c : Char) (l : Lexer) : Token × Lexer :=
  if isIdentStart c then lexIdentifier l
  else if c.isDigit then lexNumber l
  else if c == '"' then lexString l
  else if c == '\'' then lexCharLit l
  else lexPunct l c

theorem lexToken_open {l : Lexer} (hopen : l.isAtEnd = false) : lexToken l =
    if l.peek == '/' && l.peekNext == '*' then lexBlockComment l
    else if l.peek == '/' && l.peekNext == '/' then lexComment l
    else lexByFirst l.peek l := by
  rw [lexToken, hopen]
  rfl

theorem ReadsAlone.ite {b : Prop} [Decidable b] {f g : Lexer → Token × Lexer} {l : Lexer}
    (hf : b → ReadsAlone f l) (hg : ¬ b → ReadsAlone g l) :
    ReadsAlone (fun l' => if b then f l' else g l') l := by
  by_cases hb : b
  · simpa only [if_pos hb] using hf hb
  · simpa only [if_neg hb] using hg hb

theorem lexByFirst_alone {l : Lexer} {c : Char} {cs : List Char} (hl : l.rest = c :: cs)
    (hc : c ≠ nul) : ReadsAlone (lexByFirst c) l := by
  refine .ite (fun _ => lexIdentifier_alone l) fun _ => ?_
  refine .ite (fun _ => lexNumber_alone l) fun _ => ?_
  refine .ite (fun hquote => ?_) fun _ => .ite (fun hquote => ?_) fun _ => lexPunct_alone hl hc
  · obtain rfl := eq_of_beq hquote
    exact lexString_alone hl
  · obtain rfl := eq_of_beq hquote
    exact lexCharLit_alone hl

/-- What a call reads at `l` it reads from the text of that token alone: a decision to go on
is about a byte of the token, and a NUL never decides to go on. -/
theorem lexToken_alone (l : Lexer) : ReadsAlone lexToken l := by
  intro hk l0 h0
  have htake : l0.rest = l.rest.take ((lexToken l).2.pos - l.pos) := by
    rw [h0, (lexToken_reads l).text hk]
  cases hopen : l.isAtEnd with
  | true =>
    have hl : lexToken l = makeToken .eof l l := by rw [lexToken, hopen]; rfl
    have hnil : l0.rest = [] := by rw [htake, hl]; simp [makeToken]
    have hl0 : lexToken l0 = makeToken .eof l0 l0 := by
      rw [lexToken, show l0.isAtEnd = true by rw [Lexer.isAtEnd, Lexer.peek, hnil]; rfl]
      rfl
    rw [hl, hl0]
    exact ⟨rfl, by simp [makeToken]⟩
  | false =>
    obtain ⟨cs, hl, hnul⟩ := isAtEnd_eq_false hopen
    obtain ⟨hpeek, hnext⟩ := (peekNext_take htake).1 (by have := lexToken_pos_lt hopen; omega)
    have hopen0 : l0.isAtEnd = false := by rw [Lexer.isAtEnd, hpeek]; exact hopen
    rw [lexToken_open hopen] at hk h0 htake ⊢
    rw [lexToken_open hopen0, hpeek]
    by_cases hcomment : l.peek = '/' ∧ (l.peekNext = '*' ∨ l.peekNext = '/')
    · -- both bytes of the marker are in the text
      obtain ⟨hslash, hmark⟩ := hcomment
      obtain ⟨ds, hds, hd⟩ : ∃ ds, l.rest = '/' :: l.peekNext :: ds ∧ l.peekNext ≠ nul := by
        have hd : l.peekNext ≠ nul := by rcases hmark with h | h <;> rw [h] <;> decide
        cases cs with
        | nil => exact absurd (by rw [Lexer.peekNext, hl]; rfl) hd
        | cons e ds => exact ⟨ds, by rw [hl, hslash, Lexer.peekNext, hl]; rfl, hd⟩
      rcases hmark with hmark | hmark
      · have htwo := pos_add_two_le hopen hmark (by decide)
          (blockCommentLength (l.advanceBy 2).rest)
        simp only [hslash, hmark] at hk h0 htake ⊢
        rw [(peekNext_take htake).2 (Nat.le_sub_of_add_le' htwo), hmark]
        exact lexBlockComment_alone hds (by decide) hd hk l0 h0
      · have htwo := pos_add_two_le hopen hmark (by decide)
          ((l.advanceBy 2).rest.takeWhile fun c => c != '\n' && c != nul).length
        simp only [hslash, hmark] at hk h0 htake ⊢
        rw [(peekNext_take htake).2 (Nat.le_sub_of_add_le' htwo), hmark]
        exact lexComment_alone hds (by decide) hd hk l0 h0
    · have hnone : ∀ d, d = l.peekNext ∨ d = nul →
          (l.peek == '/' && d == '*') = false ∧ (l.peek == '/' && d == '/') = false := by
        rintro d (rfl | rfl)
        · simp only [not_and, not_or] at hcomment
          exact ⟨by simpa using fun h => (hcomment h).1, by simpa using fun h => (hcomment h).2⟩
        · simp [nul]
      obtain ⟨h1, h2⟩ := hnone l.peekNext (.inl rfl)
      obtain ⟨h3, h4⟩ := hnone l0.peekNext hnext
      rw [h1, h2] at hk h0 ⊢
      rw [h3, h4]
      exact lexByFirst_alone hl hnul hk l0 h0

end Arche.Syntax
