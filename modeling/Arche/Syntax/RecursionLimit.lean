import Arche.Syntax.Climbing

/-!
# The recursion limit

`parse_statement` counts its open activations in `recursion_depth`, and refuses to go on once more
than 1000 of them are open. Refusing also leaves the counter one too small, since the way out
counts down what was not counted up.

A run is watched at every call and every return of the functions that call each other: what is
to hold there depends on the number of open statements, which the watched functions carry along.
In between only `parse_statement` touches the counter.
-/

namespace Arche.Syntax

open P Arche.Syntax.Parser MoveLemmas Arche.Lib.Precedence

variable {α : Type}

/-! ## Watched runs -/

theorem watched_eq_some {before behind : Parser → Bool} {x : Option (Option α × Parser)}
    {s t : Parser} {o : Option α} :
    (if before s = true then x.filter fun r => behind r.2 else none) = some (o, t) ↔
      before s = true ∧ x = some (o, t) ∧ behind t = true := by
  split
  · next h => simp [h]
  · next h => simp [h]

/-- `p` without a result where its first state is not `before` or its last one not `behind`. -/
def watch (before behind : Parser → Bool) (p : P α) : P α where
  run m s := if before s then (p.run m s).filter fun r => behind r.2 else none
  reach := fun h => p.reach (watched_eq_some.mp h).2.1
  failed := fun h => p.failed (watched_eq_some.mp h).2.1
  reads := by
    intro s o t h hc
    obtain ⟨hbefore, hrun, hbehind⟩ := watched_eq_some.mp h
    exact watched_eq_some.mpr ⟨hbefore, p.reads hrun hc, hbehind⟩

theorem watch_run {before behind : Parser → Bool} {p : P α} {m : Mode} {s t : Parser}
    {o : Option α} : (watch before behind p).run m s = some (o, t) ↔
      before s = true ∧ p.run m s = some (o, t) ∧ behind t = true :=
  watched_eq_some

theorem watch_none {before behind : Parser → Bool} {p : P α} {m : Mode} {s : Parser}
    (h : p.run m s = none) : (watch before behind p).run m s = none := by
  rw [Option.eq_none_iff_forall_ne_some]
  rintro ⟨o, t⟩ hrun
  rw [(watch_run.mp hrun).2.1] at h
  cases h

/-- What is to hold while `k` statements are open: `call` where `parse_statement` is called, and
`moment` at every call and every return. -/
structure Watch where
  call : Nat → Parser → Bool
  moment : Nat → Parser → Bool

/-- `parse_statement` while `k` statements are open. Its body has one more open. -/
def watchedStatement (W : Watch) (k : Nat) (form : P SyntaxNodeKind) : StmtParser where
  p := watch (fun s => W.call k s && W.moment k s) (W.moment k)
    (statement (watch (W.moment (k + 1)) (W.moment (k + 1)) form)).p
  empty_semi := fun h => (statement _).empty_semi (watch_run.mp h).2.1

/-- `knot` watched, while `k` statements are open. -/
def watchedKnot (W : Watch) : Nat → Nat → Rec
  | 0, _ => knot 0
  | n + 1, k =>
    { expr := watch (W.moment k) (W.moment k) (parseExpression (watchedKnot W n k))
      type := watch (W.moment k) (W.moment k) (parseTypeForm (watchedKnot W n k))
      unary := watch (W.moment k) (W.moment k) (parseUnaryExpr (watchedKnot W n k))
      binaryRhs := fun leftCp minPrec =>
        watch (W.moment k) (W.moment k) (parseBinaryRhs (watchedKnot W n k) leftCp minPrec)
      stmt := watchedStatement W k (statementForm (watchedKnot W n (k + 1)))
      decl := watch (W.moment k) (W.moment k) (parseDecl (watchedKnot W n k)) }

/-- `parse_source` watched. -/
def watchedWith (W : Watch) (src : List Char) : Option (Nat × Parser) :=
  programRun (watchedKnot W (sufficientDepth src) 0).decl .code (some maxDeclLoop)
    ((Parser.create src).unread + 1) 0 (Parser.create src)

/-- What is watched for holds all through `parse_source`. -/
def Holds (W : Watch) (src : List Char) : Prop := (watchedWith W src).isSome = true

/-! ## Watching for nothing -/

def nothing : Watch where
  call _ _ := true
  moment _ _ := true

theorem P.ext_run {p q : P α} (h : p.run = q.run) : p = q := by
  cases p
  cases q
  cases h
  rfl

theorem StmtParser.ext_p {p q : StmtParser} (h : p.p = q.p) : p = q := by
  cases p
  cases q
  cases h
  rfl

theorem watch_nothing {before behind : Parser → Bool} (hbefore : ∀ s, before s = true)
    (hbehind : ∀ s, behind s = true) (p : P α) : watch before behind p = p := by
  apply P.ext_run
  funext m s
  have hrun : (watch before behind p).run m s = (p.run m s).filter fun r => behind r.2 :=
    if_pos (hbefore s)
  rw [hrun]
  simp only [hbehind]
  cases p.run m s <;> rfl

theorem watchedKnot_nothing (n k : Nat) : watchedKnot nothing n k = knot n := by
  induction n generalizing k with
  | zero => rfl
  | succ n ih =>
    have hmoment : ∀ s, nothing.moment k s = true := fun _ => rfl
    have hstmt : watchedStatement nothing k (statementForm (knot n)) =
        parseStatement (knot n) := by
      apply StmtParser.ext_p
      have hbody : ∀ s, nothing.moment (k + 1) s = true := fun _ => rfl
      have hform := watch_nothing hbody hbody (statementForm (knot n))
      unfold watchedStatement parseStatement
      dsimp only
      rw [hform]
      exact watch_nothing (fun _ => rfl) hmoment _
    unfold watchedKnot knot
    rw [ih, ih, hstmt]
    simp only [watch_nothing hmoment hmoment]

/-- A watch only takes results away. -/
theorem holds_nothing (src : List Char) : Holds nothing src := by
  obtain ⟨r, hr⟩ := parseWith_returns src 0 .code (some maxDeclLoop)
  have hrun : watchedWith nothing src = some r := by
    unfold watchedWith
    rw [watchedKnot_nothing]
    exact hr
  unfold Holds
  rw [hrun]
  rfl

/-! ## One watch for another -/

section

variable {d : Option Int} {pre pre' : List Elem} {before behind before' behind' : Parser → Bool}

theorem watch_local {p q : P α} (h : Local pre pre' d p q)
    (hbefore : ∀ s, (∀ j ∈ d, s.recursionDepth = j) → before' s = true)
    (hbehind : ∀ s, (∀ j ∈ d, s.recursionDepth = j) → behind' s = true) :
    Local pre pre' d (watch before behind p) (watch before' behind' q) := by
  constructor
  intro m s o t xs hs hrun
  obtain ⟨-, hp, -⟩ := watch_run.mp hrun
  obtain ⟨t', hq, ys, hys, hrest, hstart, rfl⟩ := h.out hs hp
  exact ⟨_, watch_run.mpr ⟨hbefore _ hs.depth, hq, hbehind _ hys.depth⟩, ys, hys, hrest, hstart,
    rfl⟩

theorem watch_climbs {O : Operands} {minPrec : Nat} {p q : P Unit}
    (h : Climbs O d pre pre' minPrec p q)
    (hbefore : ∀ s, (∀ j ∈ d, s.recursionDepth = j) → before' s = true)
    (hbehind : ∀ s, (∀ j ∈ d, s.recursionDepth = j) → behind' s = true) :
    Climbs O d pre pre' minPrec (watch before behind p) (watch before' behind' q) := by
  intro m s o t T hs hT hfits hrun
  obtain ⟨-, hp, -⟩ := watch_run.mp hrun
  obtain ⟨ys, hys, hgrow, hq, hend⟩ := h hs hT hfits hp
  exact ⟨ys, hys, hgrow, watch_run.mpr ⟨hbefore _ hs.depth, hq, hbehind _ hys.depth⟩, hend⟩

instance {g : α → Bool} (p : P α) [hp : Returns p g] : Returns (watch before behind p) g :=
  ⟨fun h => hp.out (watch_run.mp h).2.1⟩

end

/-- `W'` holds where the counter is right, up to 1001 open statements, and `W` keeps the last of
them from calling `parse_statement`. -/
structure Implies (W W' : Watch) : Prop where
  moment : ∀ (k : Nat) (s : Parser), k ≤ 1001 → s.recursionDepth = k → W'.moment k s = true
  call : ∀ (k : Nat) (s : Parser), k ≤ 1000 → s.recursionDepth = k → W'.call k s = true
  stops : ∀ form m (s : Parser), s.recursionDepth = 1001 →
    (watchedStatement W 1001 form).p.run m s = none

/-- Operands of any kind. -/
def anyOperands : Operands where
  reads _ _ _ _ := True
  fails _ _ := True

variable {W W' : Watch}

theorem watchedStatement_local (h : Implies W W') {k : Nat} (hk : k ≤ 1001)
    {form form' : P SyntaxNodeKind} {pre pre' : List Elem} [Returns form isOtherKind]
    (hform : k ≤ 1000 → Local pre pre' (some ((k + 1 : Nat) : Int)) form form') :
    Local pre pre' (some (k : Int)) (watchedStatement W k form).p
      (watchedStatement W' k form').p := by
  rcases Nat.lt_or_ge 1000 k with hlast | hle
  · obtain rfl : k = 1001 := by omega
    constructor
    intro m s o t xs hs hrun
    rw [h.stops form m s (hs.depth _ rfl)] at hrun
    cases hrun
  · have hmoment : ∀ s, (∀ j ∈ some ((k + 1 : Nat) : Int), s.recursionDepth = j) →
        W'.moment (k + 1) s = true := fun s hs => h.moment (k + 1) s (by omega) (hs _ rfl)
    have hbody : Local pre pre' (some ((k + 1 : Nat) : Int))
        (watch (W.moment (k + 1)) (W.moment (k + 1)) form)
        (watch (W'.moment (k + 1)) (W'.moment (k + 1)) form') :=
      watch_local (hform hle) hmoment hmoment
    have hmax : ∀ j ∈ some (k : Int), j ≤ maxRecursionDepth := by
      rintro j ⟨⟩
      unfold maxRecursionDepth
      omega
    refine watch_local (local_statement hmax hbody inferInstance) (fun s hs => ?_)
      fun s hs => h.moment k s hk (hs _ rfl)
    rw [h.call k s hle (hs _ rfl), h.moment k s hk (hs _ rfl)]
    rfl

theorem recLocal_watched (h : Implies W W') (n : Nat) {k : Nat} (hk : k ≤ 1001) :
    RecLocal anyOperands (some (k : Int)) (watchedKnot W n k) (watchedKnot W' n k) := by
  induction n generalizing k with
  | zero => exact recLocal_stuck _ _ _
  | succ n ih =>
    have hrec := ih hk
    have hmoment : ∀ s, (∀ j ∈ some (k : Int), s.recursionDepth = j) → W'.moment k s = true :=
      fun s hs => h.moment k s hk (hs _ rfl)
    refine
      { expr := fun pre pre' => watch_local inferInstance hmoment hmoment
        type := fun pre pre' => watch_local inferInstance hmoment hmoment
        unary := fun pre pre' => watch_local inferInstance hmoment hmoment
        stmt := fun pre pre' => watchedStatement_local h hk fun hle => ?_
        decl := fun pre pre' => watch_local inferInstance hmoment hmoment
        typeKind := ?_
        declKind := ?_
        operand := ?_
        operandFails := fun _ _ => trivial
        binaryRhs := fun pre pre' minPrec =>
          watch_climbs (parseBinaryRhs_climbs hrec pre pre' minPrec) hmoment hmoment }
    · have hrec' := ih (k := k + 1) (by omega)
      infer_instance
    · have hkind := parseTypeForm_other (watchedKnot W n k)
      unfold watchedKnot
      infer_instance
    · have hkind := parseDecl_other (watchedKnot W n k)
      unfold watchedKnot
      infer_instance
    · intro pre m s t hs hrun
      obtain ⟨e, he, ht⟩ := parseUnaryExpr_node hrec hs (watch_run.mp hrun).2.1
      exact ⟨e, he, ht, trivial⟩

theorem programRun_local {decl decl' : P SyntaxNodeKind} {m : Mode} {limit : Option Nat}
    {n count : Nat} {s : Parser} {r : Nat × Parser}
    (h : Local [] [] (some 0) (declNode decl) (declNode decl')) (hs : s.recursionDepth = 0)
    (hrun : programRun decl m limit n count s = some r) :
    programRun decl' m limit n count s = some r := by
  induction n generalizing count s with
  | zero => cases hrun
  | succ n ih =>
    unfold programRun at hrun ⊢
    split at hrun
    · next hend =>
      rw [if_pos hend]
      exact hrun
    · next hend =>
      rw [if_neg hend]
      split at hrun
      · next hlimit =>
        rw [if_pos hlimit]
        exact hrun
      · next hlimit =>
        rw [if_neg hlimit]
        split at hrun
        · next t ht =>
          have hzero : ∀ j ∈ some (0 : Int), s.recursionDepth = j := by
            rintro j ⟨⟩
            exact hs
          obtain ⟨ht', hdepth⟩ := h.same hzero ht
          rw [ht']
          dsimp only
          split at hrun
          · next hlt =>
            rw [if_pos hlt]
            exact ih (hdepth 0 rfl) hrun
          · cases hrun
        · cases hrun

theorem create_depth (src : List Char) : (Parser.create src).recursionDepth = 0 :=
  (AccountLemmas.advance_sameFlags (Parser.init src)).recursionDepth

/-- A run that is watched for the one is watched for the other. -/
theorem Implies.holds (h : Implies W W') {src : List Char} (hW : Holds W src) : Holds W' src := by
  obtain ⟨r, hr⟩ := Option.isSome_iff_exists.mp hW
  have hrec := recLocal_watched h (sufficientDepth src) (Nat.zero_le 1001)
  have hdecl : Local [] [] (some 0) (watchedKnot W (sufficientDepth src) 0).decl
      (watchedKnot W' (sufficientDepth src) 0).decl := hrec.decl [] []
  have hkind := hrec.declKind
  exact Option.isSome_iff_exists.mpr
    ⟨r, programRun_local inferInstance (create_depth src) hr⟩

/-! ## The counter and its limit -/

/-- The counter is the number of open statements, and with the one that is called no more than
1002 are nested. -/
def counted : Watch where
  call k _ := decide (k + 1 ≤ 1002)
  moment k s := decide (s.recursionDepth = k ∧ k ≤ 1002)

/-- `parse_statement` is not called at its limit. -/
def unlimited : Watch where
  call _ s := decide (s.recursionDepth ≤ maxRecursionDepth)
  moment _ _ := true

theorem counted_implies : Implies counted unlimited where
  moment _ _ _ _ := rfl
  call k s hk hs := by
    have hle : s.recursionDepth ≤ maxRecursionDepth := by
      unfold maxRecursionDepth
      omega
    exact decide_eq_true hle
  stops := by
    intro form m s hs
    rw [Option.eq_none_iff_forall_ne_some]
    rintro ⟨o, t⟩ hrun
    obtain ⟨-, hrun, hmoment⟩ := watch_run.mp hrun
    -- at its limit the statement leaves the counter at 1000
    have hlimit : s.recursionDepth > maxRecursionDepth := by
      unfold maxRecursionDepth
      omega
    have hrefused : some ((none : Option StmtResult),
        (s.report "Recursion limit exceeded").leaveStmt) = some (o, t) := by
      rw [← hrun]
      exact (if_pos hlimit).symm
    cases hrefused
    have hdepth := (of_decide_eq_true hmoment).1
    have hreport := (report_appends "Recursion limit exceeded" s).depth
    have hleave : (s.report "Recursion limit exceeded").leaveStmt.recursionDepth =
        (s.report "Recursion limit exceeded").recursionDepth - 1 := rfl
    omega

theorem unlimited_implies : Implies unlimited counted where
  moment k s hk hs := decide_eq_true ⟨hs, by omega⟩
  call k s hk hs := decide_eq_true (by omega)
  stops := by
    intro form m s hs
    rw [Option.eq_none_iff_forall_ne_some]
    rintro ⟨o, t⟩ hrun
    obtain ⟨hcall, -, -⟩ := watch_run.mp hrun
    have hle : s.recursionDepth ≤ maxRecursionDepth :=
      of_decide_eq_true (Bool.and_eq_true_iff.mp hcall).1
    unfold maxRecursionDepth at hle
    omega

/-- The counter is right all through `parse_source` just where `parse_statement` is never called
at its limit. -/
theorem counted_iff_unlimited (src : List Char) : Holds counted src ↔ Holds unlimited src :=
  ⟨counted_implies.holds, unlimited_implies.holds⟩

/-! ## A text that reaches the limit -/

/-- The token in hand is a `{`, and so are the next `n` characters. -/
structure Braces (n : Nat) (s : Parser) : Prop where
  current : s.current.kind = .lbrace
  rest : s.lexer.rest = List.replicate n '{'

theorem lexerNextToken_brace {l : Lexer} {cs : List Char} (h : l.rest = '{' :: cs) :
    (lexerNextToken l).1.kind = .lbrace ∧ (lexerNextToken l).2.rest = cs := by
  obtain ⟨rest, pos, line, column⟩ := l
  cases h
  exact ⟨rfl, rfl⟩

theorem advance_next {s : Parser} (h : (lexerNextToken s.lexer).1.kind ≠ .comment) :
    s.advance.current = (lexerNextToken s.lexer).1 ∧
      s.advance.lexer = (lexerNextToken s.lexer).2 := by
  have hskip : ∀ (n : Nat) (t : Parser), t.current.kind ≠ .comment → t.skipComments n = t := by
    intro n t ht
    cases n <;> exact if_neg ht
  have htake : s.take.lexer = s.lexer := by
    unfold take
    split <;> rfl
  have hnext : s.take.next.current = (lexerNextToken s.lexer).1 := by rw [← htake]; rfl
  have hlexer : s.take.next.lexer = (lexerNextToken s.lexer).2 := by rw [← htake]; rfl
  unfold advance
  rw [hskip _ _ (by rw [hnext]; exact h), ← hnext, ← hlexer]
  unfold flagError
  split <;> exact ⟨rfl, rfl⟩

theorem Braces.advance {n : Nat} {s : Parser} (h : Braces (n + 1) s) : Braces n s.advance := by
  obtain ⟨hkind, hrest⟩ := lexerNextToken_brace h.rest
  obtain ⟨hcurrent, hlexer⟩ := advance_next (s := s) (by rw [hkind]; decide)
  exact ⟨by rw [hcurrent, hkind], by rw [hlexer, hrest]⟩

section

variable {β : Type} {m : Mode} {s : Parser} {r : Rec}

theorem ask_run (f : Parser → α) (g : α → P β) : (ask f >>= g).run m s = (g (f s)).run m s := rfl

theorem bind_none {p : P α} {f : α → P β} (h : p.run m s = none) : (p >>= f).run m s = none := by
  rw [bind_run, h]

theorem matchIf_skip {f : TokenKind → Bool} {hf : f .eof = false} {p q : P α}
    (h : f s.current.kind = false) :
    (do if ← matchIf f hf then p else q).run m s = q.run m s := by
  rw [bind_run, matchIf_false h]
  rfl

theorem matchIf_take {f : TokenKind → Bool} {hf : f .eof = false} {p q : P α}
    (h : f s.current.kind = true) :
    (do if ← matchIf f hf then p else q).run m s = p.run m s.advance := by
  rw [bind_run, matchIf_true h]
  rfl

/-- A body gets stuck on its first statement. -/
theorem bodyUntilBrace_none {stmt : StmtParser} {message : String}
    (hbrace : s.current.kind = .lbrace) (h : stmt.p.run m s = none) :
    (bodyUntilBrace stmt message).run m s = none := by
  have hopen : ¬ (s.current.kind = .rbrace ∨ s.current.kind = .eof) := by
    rw [hbrace]
    decide
  have hbody : bodyRun stmt.p m (s.unread + 1) false s = none := by
    unfold bodyRun
    rw [if_neg hopen, h]
  exact Option.map_eq_none_iff.mpr hbody

theorem statementForm_none (hbrace : s.current.kind = .lbrace)
    (hnext : s.advance.current.kind = .lbrace) (h : r.stmt.p.run m s.advance = none) :
    (statementForm r).run m s = none := by
  unfold statementForm matchTok
  rw [matchIf_skip (by rw [hbrace]; rfl), matchIf_skip (by rw [hbrace]; rfl),
    matchIf_skip (by rw [hbrace]; rfl), matchIf_skip (by rw [hbrace]; rfl),
    matchIf_skip (by rw [hbrace]; rfl), matchIf_take (by rw [hbrace]; rfl)]
  exact bind_none (bodyUntilBrace_none hnext h)

theorem parseBlockBody_none (hbrace : s.current.kind = .lbrace)
    (hnext : s.advance.current.kind = .lbrace) (h : r.stmt.p.run m s.advance = none) :
    (parseBlockBody r).run m s = none := by
  have hexpect : (expect .lbrace "Expected '\x7b'").run m s = some (some (), s.advance) := by
    unfold expect matchTok
    rw [matchIf_take (by rw [hbrace]; rfl)]
    rfl
  unfold parseBlockBody
  rw [bind_run, hexpect]
  exact bodyUntilBrace_none hnext h

theorem parseSystemExpr_none (hbrace : s.current.kind = .lbrace)
    (hnext : s.advance.current.kind = .lbrace) (h : r.stmt.p.run m s.advance = none) :
    (parseSystemExpr r).run m s = none := by
  have hword : s.curIdentIs "eff" = false := by
    unfold curIdentIs
    rw [hbrace]
    rfl
  have heff : parseOptEff.run m s = some (some false, s) := by
    unfold parseOptEff
    rw [checkpoint_run, bind_run]
    simp [ask, lift, hword]
    rfl
  unfold parseSystemExpr matchTok
  rw [matchIf_skip (by rw [hbrace]; rfl), bind_run, heff]
  exact bind_none (parseBlockBody_none hbrace hnext h)

theorem parseExpression_none (hsystem : s.current.kind = .system)
    (h : (parseSystemExpr r).run m s.advance = none) : (parseExpression r).run m s = none := by
  have hprimary : (parsePrimaryExpr r).run m s = none := by
    unfold parsePrimaryExpr matchTok
    rw [checkpoint_run, ask_run, ask_run, ask_run, matchIf_skip (by rw [hsystem]; rfl),
      matchIf_skip (by rw [hsystem]; rfl), matchIf_skip (by rw [hsystem]; rfl),
      matchIf_skip (by rw [hsystem]; rfl), matchIf_skip (by rw [hsystem]; rfl),
      matchIf_skip (by rw [hsystem]; rfl), matchIf_skip (by rw [hsystem]; rfl),
      matchIf_skip (by rw [hsystem]; rfl), matchIf_skip (by rw [hsystem]; rfl),
      matchIf_skip (by rw [hsystem]; rfl), matchIf_take (by rw [hsystem]; rfl)]
    exact h
  have hunary : (parseUnaryExpr r).run m s = none := by
    unfold parseUnaryExpr
    rw [checkpoint_run, matchIf_skip (by rw [hsystem]; rfl), matchIf_skip (by rw [hsystem]; rfl)]
    unfold parsePostfix
    rw [checkpoint_run]
    exact bind_none hprimary
  unfold parseExpression
  rw [checkpoint_run]
  exact bind_none hunary

theorem parseDecl_none (hrun : s.current.kind = .hashRun)
    (hnext : s.advance.current.kind = .system) (h : r.expr.run m s.advance = none) :
    (parseDecl r).run m s = none := by
  have hdecorators : parseDecorators.run m s = some (some none, s) := by
    have hat : (s.current.kind == .at) = false := by
      rw [hrun]
      rfl
    have hround : (do
        if ← matchTok .at then
          let directive ← parseDecorator
          return (directive.isNone, directive)
        else return (false, none) : P (Bool × Option SyntaxNodeKind)).run m s =
          some (some (false, none), s) := by
      unfold matchTok
      rw [matchIf_skip hat]
      rfl
    unfold parseDecorators loopOn
    dsimp only
    unfold loopRun
    rw [hround]
  have hregion : (parseRunRegion r).run m s.advance = none := by
    have hexpr : (orReport r.expr "expected a Schedule expression after `#run`").run m s.advance =
        none := by
      unfold orReport onFail
      dsimp only
      rw [h]
    unfold parseRunRegion matchTok
    rw [matchIf_skip (by rw [hnext]; rfl)]
    exact bind_none hexpr
  unfold parseDecl
  rw [bind_run, hdecorators]
  dsimp only
  unfold parseDeclForm matchTok
  rw [matchIf_skip (by rw [hrun]; rfl), matchIf_skip (by rw [hrun]; rfl),
    matchIf_skip (by rw [hrun]; rfl), matchIf_skip (by rw [hrun]; rfl),
    matchIf_take (by rw [hrun]; rfl)]
  exact hregion

/-- A run gets stuck on its first declaration. -/
theorem not_holds_of_none {W : Watch} {src : List Char}
    (hopen : (Parser.create src).current.kind ≠ .eof)
    (h : (watchedKnot W (sufficientDepth src) 0).decl.run .code (Parser.create src) = none) :
    ¬ Holds W src := by
  have hrecover : (recover (watchedKnot W (sufficientDepth src) 0).decl).run .code
      (Parser.create src) = none := by
    unfold recover
    dsimp only
    rw [h]
  have hnode : (declNode (watchedKnot W (sufficientDepth src) 0).decl).run .code
      (Parser.create src) = none := by
    unfold declNode
    rw [checkpoint_run]
    exact bind_none hrecover
  have hfew : ¬ (some maxDeclLoop).any (0 + 1 > ·) = true := by decide
  have hstuck : watchedWith W src = none := by
    unfold watchedWith programRun
    rw [if_neg hopen, if_neg hfew, hnode]
  intro hholds
  unfold Holds at hholds
  rw [hstuck] at hholds
  cases hholds

end

/-- Where 1001 statements are going to be open, each one behind the other, the last one calls
`parse_statement` at its limit. -/
theorem braces_none {m : Mode} (n : Nat) {j k : Nat} {s : Parser} (hbraces : Braces j s)
    (hdepth : s.recursionDepth = k) (hlimit : k + j = 1001) :
    (watchedKnot unlimited n k).stmt.p.run m s = none := by
  induction n generalizing j k s with
  | zero => rfl
  | succ n ih =>
    cases j with
    | zero =>
      obtain rfl : k = 1001 := by omega
      exact unlimited_implies.stops _ m s hdepth
    | succ j =>
      have hadvance : s.enterStmt.advance.recursionDepth = ((k + 1 : Nat) : Int) := by
        rw [(AccountLemmas.advance_sameFlags s.enterStmt).recursionDepth]
        have henter : s.enterStmt.recursionDepth = s.recursionDepth + 1 := rfl
        omega
      have henter : Braces (j + 1) s.enterStmt := ⟨hbraces.current, hbraces.rest⟩
      have hform : (statementForm (watchedKnot unlimited n (k + 1))).run m s.enterStmt = none :=
        statementForm_none henter.current henter.advance.current
          (ih henter.advance hadvance (by omega))
      have hbelow : ¬ s.recursionDepth > maxRecursionDepth := by
        unfold maxRecursionDepth
        omega
      have hsemi : ¬ s.current.kind = .semi := by
        rw [hbraces.current]
        decide
      apply watch_none
      show statementRun _ m s = none
      unfold statementRun
      rw [if_neg hbelow, if_neg hsemi, watch_none hform]

/-- `#run system{` and 1002 more braces. -/
def deepBraces : List Char := "#run system\x7b".toList ++ List.replicate 1002 '{'

/-- The counter is not always right: behind the limit it is one too small. -/
theorem not_counted : ¬ ∀ src, Holds counted src := by
  intro hall
  have hholds := counted_implies.holds (hall deepBraces)
  have hrun : (Parser.create deepBraces).current.kind = .hashRun := by decide +kernel
  have hsystem : (Parser.create deepBraces).advance.current.kind = .system := by decide +kernel
  have hbraces : Braces 1002 (Parser.create deepBraces).advance.advance :=
    ⟨by decide +kernel, by decide +kernel⟩
  have hzero := create_depth deepBraces
  generalize hs : Parser.create deepBraces = s at hrun hsystem hbraces hzero
  have hdepth : s.advance.advance.advance.recursionDepth = ((0 : Nat) : Int) := by
    rw [(AccountLemmas.advance_sameFlags _).recursionDepth,
      (AccountLemmas.advance_sameFlags _).recursionDepth,
      (AccountLemmas.advance_sameFlags _).recursionDepth]
    exact hzero
  have hdecl : ∀ n, (watchedKnot unlimited n 0).decl.run .code s = none := by
    intro n
    cases n with
    | zero => rfl
    | succ n =>
      refine watch_none (parseDecl_none hrun hsystem ?_)
      cases n with
      | zero => rfl
      | succ n =>
        exact watch_none (parseExpression_none hsystem (parseSystemExpr_none hbraces.current
          hbraces.advance.current (braces_none n hbraces.advance hdepth rfl)))
  have hopen : s.current.kind ≠ .eof := by
    rw [hrun]
    decide
  refine not_holds_of_none ?_ ?_ hholds
  · rw [hs]
    exact hopen
  · rw [hs]
    exact hdecl _

end Arche.Syntax
