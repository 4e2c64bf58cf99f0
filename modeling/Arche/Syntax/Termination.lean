import Arche.Syntax.Progress

/-!
# Parsing ends on every text

The functions of the circle only call each other behind a consumed token, or hand
on to a function whose own calls are. So a call depth above the number of
unread bytes is never used up, and no loop of the parser goes round without
consuming: `parse_source` returns on every text.
-/

namespace Arche.Syntax
set_option synthInstance.maxSize 1000000

open P Arche.Syntax.Parser MoveLemmas

variable {n : Nat}

/-- The functions of the circle return on fewer than `n` unread bytes. -/
class RecTotal (n : Nat) (r : Rec) : Prop where
  expr : Total n r.expr
  type : Total n r.type
  unary : Total n r.unary
  binaryRhs : ∀ cp minPrec, Total n (r.binaryRhs cp minPrec)
  stmt : Total n r.stmt.p
  decl : Total n r.decl

/-- The functions of the circle consume, `parse_binary_rhs` if it is called at an operator. -/
class RecStrict (r : Rec) : Prop where
  expr : Strict r.expr
  type : Strict r.type
  unary : Strict r.unary
  binaryRhs : ∀ {cp minPrec m s t}, bindsAt minPrec s.current.kind = true →
    (r.binaryRhs cp minPrec).run m s = some (some (), t) → t.unread < s.unread
  stmt : Strict r.stmt.p
  decl : Strict r.decl

section

variable (r : Rec)

instance [h : RecTotal n r] : Total n r.expr := h.expr
instance [h : RecTotal n r] : Total n r.type := h.type
instance [h : RecTotal n r] : Total n r.unary := h.unary
instance [h : RecTotal n r] (cp p : Nat) : Total n (r.binaryRhs cp p) := h.binaryRhs cp p
instance [h : RecTotal n r] : Total n r.stmt.p := h.stmt
instance [h : RecTotal n r] : Total n r.decl := h.decl

instance [h : RecStrict r] : Strict r.expr := h.expr
instance [h : RecStrict r] : Strict r.type := h.type
instance [h : RecStrict r] : Strict r.unary := h.unary
instance [h : RecStrict r] : Strict r.stmt.p := h.stmt
instance [h : RecStrict r] : Strict r.decl := h.decl

/-! ## Types and signatures -/

instance (k : TokenKind) (hk : (TokenKind.eof == k) = false) : Total n (optTok k hk) := by
  unfold optTok
  infer_instance

instance (kind : SyntaxNodeKind) (message : String) : Total n (nameNode kind message) := by
  unfold nameNode
  infer_instance

instance (kind : SyntaxNodeKind) (message : String) : Strict (nameNode kind message) := by
  unfold nameNode
  infer_instance

instance : Total n parseQueryColumns := by
  unfold parseQueryColumns
  infer_instance

variable [RecTotal n r]

instance : Total n (parseType r) := by
  unfold parseType
  infer_instance

instance : Total n (paramNode r) := by
  unfold paramNode
  infer_instance

instance (isExtern : Bool) : Total n (parseParamListBody r isExtern) := by
  unfold parseParamListBody
  infer_instance

instance : Total n (outParamNode r) := by
  unfold outParamNode
  infer_instance

instance : Total n (parseProcOutList r) := by
  unfold parseProcOutList
  infer_instance

instance (isExtern : Bool) : Total n (parseFuncReturn r isExtern) := by
  unfold parseFuncReturn
  infer_instance

instance (isExtern : Bool) : Total n (parseProcSig r isExtern) := by
  unfold parseProcSig
  infer_instance

instance (isExtern : Bool) : Total n (parseFuncSig r isExtern) := by
  unfold parseFuncSig
  infer_instance

instance : Total n (parseDim r) := by
  unfold parseDim
  infer_instance

instance (d : Dim) : Total n (parseDims r d) := by
  unfold parseDims
  infer_instance

instance : Total n (parseArrayType r) := by
  unfold parseArrayType
  infer_instance

instance : Total (n + 1) (parseNamedType r) := by
  unfold parseNamedType
  infer_instance

instance : Total (n + 1) (parseTypeInner r) := by
  unfold parseTypeInner
  infer_instance

instance : Total (n + 1) (parseTypeForm r) := by
  unfold parseTypeForm
  infer_instance

omit [RecTotal n r] in
instance : Strict (parseTypeForm r) := by
  unfold parseTypeForm parseTypeInner parseNamedType
  infer_instance

instance : Total n (parseTupleNameGroup r) := by
  unfold parseTupleNameGroup
  infer_instance

instance : Total n (parseArchField r) := by
  unfold parseArchField
  infer_instance

omit [RecTotal n r] in
instance : Strict (parseArchField r) := by
  unfold parseArchField
  infer_instance

end

/-! ## The loops over statements -/

section

variable (stmt : P StmtResult) [ht : Total n stmt] [hs : Strict stmt]

omit ht in
/-- A round of a body loop ends behind the token it began with. -/
theorem react_unread_lt {m : Mode} (half : Bool) {s t : Parser} {o : Option StmtResult}
    (hne : s.current.kind ≠ .eof) (h : stmt.run m s = some (o, t)) :
    (react m half o t).2.unread < s.unread := by
  cases o with
  | none => cases m <;> exact unread_synchronize_of_reach hne (stmt.reach h)
  | some res => exact Nat.lt_of_le_of_lt (react_follows m half _ t).unread_le (hs.out h rfl)

theorem bodyRun_total (m : Mode) (half : Bool) {s : Parser} {k : Nat} (hn : s.unread < n)
    (hk : s.unread < k) : ∃ t, bodyRun stmt m k half s = some t := by
  induction k generalizing half s with
  | zero => omega
  | succ k ih =>
    unfold bodyRun
    split
    · exact ⟨_, rfl⟩
    · next hopen =>
      have hne : s.current.kind ≠ .eof := fun he => hopen (Or.inr he)
      obtain ⟨o, t, hrun⟩ := ht.out m s hn
      have hlt := react_unread_lt stmt half hne hrun
      rw [hrun]
      simp only [hlt, if_true]
      exact ih _ (by omega) (by omega)

theorem eachFieldRun_total (m : Mode) {s : Parser} {k : Nat} (hn : s.unread < n)
    (hk : s.unread < k) : ∃ t, eachFieldRun stmt m k s = some t := by
  induction k generalizing s with
  | zero => omega
  | succ k ih =>
    unfold eachFieldRun
    split
    · exact ⟨_, rfl⟩
    obtain ⟨o, t, hrun⟩ := ht.out m s hn
    rw [hrun]
    rcases o with _ | _ | _
    case none => exact ⟨_, rfl⟩
    case some.full =>
      have hlt := hs.out hrun rfl
      simp only [hlt, if_true]
      exact ih (by omega) (by omega)
    case some.empty =>
      cases m with
      | code => exact ⟨_, rfl⟩
      | grammar =>
        have hlt : (t.markLone (t.current.kind != .rbrace)).unread < s.unread :=
          Nat.lt_of_le_of_lt (follows_markLone (Follows.refl false t) _).unread_le (hs.out hrun rfl)
        simp only [hlt, if_true]
        exact ih (by omega) (by omega)

omit hs in
theorem armBody_total (block : P Unit) [hb : Total n block] (m : Mode) {s : Parser}
    (hn : s.unread < n) : ∃ b t, armBody block stmt m s = some (b, t) := by
  unfold armBody
  split
  · obtain ⟨o, t, hrun⟩ := hb.out m s hn
    exact ⟨_, _, by rw [hrun]; rfl⟩
  · obtain ⟨o, t, hrun⟩ := ht.out m s hn
    exact ⟨_, _, by rw [hrun]; rfl⟩

omit hs in
theorem armsRun_total (pattern block : P Unit) [hp : Total n pattern] [hps : Strict pattern]
    [hb : Total n block] (m : Mode) {s : Parser} {k : Nat} (hn : s.unread < n)
    (hk : s.unread < k) : ∃ t, armsRun pattern block stmt m k s = some t := by
  induction k generalizing s with
  | zero => omega
  | succ k ih =>
    unfold armsRun
    split
    · exact ⟨_, rfl⟩
    obtain ⟨o, t, hrun⟩ := hp.out m s hn
    rw [hrun]
    cases o with
    | none => exact ⟨_, rfl⟩
    | some _ =>
      have hlt := hps.out hrun rfl
      have htn : t.unread < n := by omega
      obtain ⟨b, u, hu⟩ := armBody_total stmt block m htn
      simp only [hu]
      cases b with
      | false => exact ⟨_, rfl⟩
      | true =>
        have hend : (armEnd u s.items.length).unread < s.unread :=
          Nat.lt_of_le_of_lt (armEnd_follows (armBody_follows hu) _).unread_le hlt
        simp only [hend, if_true]
        exact ih (by omega) (by omega)

instance (message : String) : Total n (eachFieldBody stmt message) := by
  constructor
  intro m s hlt
  obtain ⟨t, hrun⟩ := eachFieldRun_total stmt m hlt (Nat.lt_succ_self s.unread)
  exact ⟨some (), t.closeBrace message, by simp only [eachFieldBody, hrun, Option.map_some]⟩

omit hs in
instance (pattern block : P Unit) (message : String) [Total n pattern] [Strict pattern]
    [Total n block] : Total n (matchArms pattern block stmt message) := by
  constructor
  intro m s hlt
  obtain ⟨t, hrun⟩ := armsRun_total stmt pattern block m hlt (Nat.lt_succ_self s.unread)
  exact ⟨some (), t.closeBrace message, by simp only [matchArms, hrun, Option.map_some]⟩

end

instance (stmt : StmtParser) (message : String) [Total n stmt.p] [Strict stmt.p] :
    Total n (bodyUntilBrace stmt message) := by
  constructor
  intro m s hlt
  obtain ⟨t, hrun⟩ := bodyRun_total stmt.p m false hlt (Nat.lt_succ_self s.unread)
  exact ⟨some (), t.closeBrace message, by simp only [bodyUntilBrace, hrun, Option.map_some]⟩

/-- The statement forms run on the caller's text: raising the recursion counter reads nothing. -/
instance (form : P SyntaxNodeKind) [hf : Total n form] : Total n (statement form).p := by
  constructor
  intro m s hlt
  show ∃ o t, statementRun form m s = some (o, t)
  unfold statementRun
  split
  · exact ⟨_, _, rfl⟩
  split
  · exact ⟨_, _, rfl⟩
  have hlt' : s.enterStmt.unread < n := hlt
  obtain ⟨o, t, hrun⟩ := hf.out m _ hlt'
  rw [hrun]
  cases o <;> exact ⟨_, _, rfl⟩

instance (form : P SyntaxNodeKind) [hf : Strict form] : Strict (statement form).p := by
  constructor
  intro m s res t h _
  have h' : statementRun form m s = some (some res, t) := h
  unfold statementRun at h'
  split at h'
  · cases h'
  split at h'
  · next hsemi =>
    cases h'
    have hne : s.enterStmt.current.kind ≠ .eof := by
      have : s.enterStmt.current.kind = .semi := hsemi
      rw [this]
      decide
    exact AccountLemmas.unread_advance_lt hne
  split at h'
  · cases h'
  · cases h'
  · next kind u hu =>
    cases h'
    have hlt : u.unread < s.enterStmt.unread := hf.out hu rfl
    exact Nat.lt_of_le_of_lt ((reach_leaveStmt u).trans (reach_wrap _ _ _)).unread_le hlt

/-! ## Bodies and expressions -/

section

instance : Total n parseGroupForm := by
  unfold parseGroupForm
  infer_instance

instance : Total n parseOptEff := by
  unfold parseOptEff
  infer_instance

instance : Total n parseOptRowBind := by
  unfold parseOptRowBind
  infer_instance

instance : Total n parseOptWrites := by
  unfold parseOptWrites
  infer_instance

instance (message : String) : Total n (parseQueryThing message) := by
  unfold parseQueryThing
  infer_instance

instance : Total n enumVariant := by
  unfold enumVariant
  infer_instance

instance : Total n parseEnumExpr := by
  unfold parseEnumExpr
  infer_instance

instance (kind : SyntaxNodeKind) : Total n (parseOptPolicy kind) := by
  unfold parseOptPolicy
  infer_instance

instance (op : TokenKind) : Total n (divPolicy op) := by
  unfold divPolicy
  infer_instance

variable (r : Rec)

instance (cp : Nat) (kind : SyntaxNodeKind) : StrictOn (postfixGroup r cp kind) Prod.fst := by
  unfold postfixGroup
  infer_instance

instance : Strict (sumVariant r) := by
  unfold sumVariant
  infer_instance

instance : Strict (parsePrimaryExpr r) := by
  unfold parsePrimaryExpr
  infer_instance

instance : Strict (parseUnaryExpr r) := by
  unfold parseUnaryExpr parsePostfix
  infer_instance

instance (leftCp minPrec : Nat) : StrictOn (binaryStep r leftCp minPrec) id := by
  unfold binaryStep
  infer_instance

instance : Strict (parseExpression r) := by
  unfold parseExpression
  infer_instance

variable [RecTotal n r] [RecStrict r]

instance : Total n (parseBlockBody r) := by
  unfold parseBlockBody
  infer_instance

instance (isExtern : Bool) : Total n (parseProcForm r isExtern) := by
  unfold parseProcForm
  infer_instance

instance : Total n (parseFuncForm r) := by
  unfold parseFuncForm
  infer_instance

instance : Total n (parsePolicyForm r) := by
  unfold parsePolicyForm
  infer_instance

instance : Total n (parseBracketIndexOrSlice r) := by
  unfold parseBracketIndexOrSlice
  infer_instance

instance : Total n (parseArrayLit r) := by
  unfold parseArrayLit
  infer_instance

instance : Total n (archFields r) := by
  unfold archFields
  infer_instance

instance : Total n (parseArchExpr r) := by
  unfold parseArchExpr
  infer_instance

instance : Total n (parseMapExpr r) := by
  unfold parseMapExpr
  infer_instance

instance : Total n (parseSystemExpr r) := by
  unfold parseSystemExpr
  infer_instance

instance : Total n (sumVariant r) := by
  unfold sumVariant
  infer_instance

instance : Total n (parseSumExpr r) := by
  unfold parseSumExpr
  infer_instance

instance (trailing : Bool) : Total n (countExprs r trailing) := by
  unfold countExprs
  infer_instance

instance : Total n (entityField r) := by
  unfold entityField
  infer_instance

instance : Total n (parseEntityExpr r) := by
  unfold parseEntityExpr
  infer_instance

instance : Total n (parseArgs r) := by
  unfold parseArgs
  infer_instance

instance : Total n (parseIndex r) := by
  unfold parseIndex
  infer_instance

instance : Total n (parseFieldChain r) := by
  unfold parseFieldChain
  infer_instance

instance (isCollective : Bool) : Total n (parseCall r isCollective) := by
  unfold parseCall
  infer_instance

instance (cp : Nat) (isTable isSum isCollective : Bool) : Total n (parseNamePrimary r cp isTable isSum isCollective) := by
  unfold parseNamePrimary
  infer_instance

instance (cp : Nat) : Total n (parseParen r cp) := by
  unfold parseParen
  infer_instance

instance : Total (n + 1) (parsePrimaryExpr r) := by
  unfold parsePrimaryExpr
  infer_instance

instance (cp : Nat) (kind : SyntaxNodeKind) : Total n (postfixGroup r cp kind) := by
  unfold postfixGroup
  infer_instance

instance : Total (n + 1) (parsePostfix r) := by
  unfold parsePostfix
  infer_instance

instance : Total (n + 1) (parseUnaryExpr r) := by
  unfold parseUnaryExpr
  infer_instance

/-- `parse_binary_rhs` is only called at an operator that it takes. -/
instance (rightCp minPrec : Nat) : StrictOn (tighterRhs r rightCp minPrec) id := by
  constructor
  intro m s b t h hg
  obtain ⟨binds, u, hu, ht⟩ := bind_some h
  cases hu
  split at ht
  · next hb =>
    obtain ⟨_, v, hv, hpure⟩ := bind_some ht
    cases hpure
    exact RecStrict.binaryRhs hb hv
  · cases ht
    cases hg

instance (rightCp minPrec : Nat) : Total n (tighterRhs r rightCp minPrec) := by
  unfold tighterRhs
  infer_instance

instance (leftCp minPrec : Nat) : Total n (parseBinaryRhs r leftCp minPrec) := by
  unfold parseBinaryRhs binaryStep
  infer_instance

instance (leftCp minPrec : Nat) : Total (n + 1) (parseBinaryRhs r leftCp minPrec) := by
  unfold parseBinaryRhs binaryStep
  infer_instance

instance : Total (n + 1) (parseExpression r) := by
  unfold parseExpression
  infer_instance

end

/-! ## Statements -/

section

instance (kind : SyntaxNodeKind) (message : String) : Total n (jumpStmt kind message) := by
  unfold jumpStmt
  infer_instance

instance : Total n armPattern := by
  unfold armPattern
  infer_instance

instance : Strict armPattern := by
  unfold armPattern
  infer_instance

variable (r : Rec)

instance : Strict (parseSimpleStatement r) := by
  unfold parseSimpleStatement
  infer_instance

instance : Strict (statementForm r) := by
  unfold statementForm
  infer_instance

instance (k : Nat) : StrictOn (bindTarget r k) Prod.fst := by
  unfold bindTarget
  infer_instance

variable [RecTotal n r] [RecStrict r]

instance : Total n (bindingValue r) := by
  unfold bindingValue
  infer_instance

instance : Total n (parseBindingTail r) := by
  unfold parseBindingTail
  infer_instance

instance : Total n (outArg r) := by
  unfold outArg
  infer_instance

instance (cp : Nat) : Total n (simpleTail r cp) := by
  unfold simpleTail
  infer_instance

instance : Total (n + 1) (parseSimpleStatement r) := by
  unfold parseSimpleStatement
  infer_instance

instance : Total n (eachFieldStmt r) := by
  unfold eachFieldStmt
  infer_instance

instance : Total n (returnStmt r) := by
  unfold returnStmt
  infer_instance

instance : Total n (matchStmt r) := by
  unfold matchStmt
  infer_instance

instance (k : Nat) : Total n (bindTarget r k) := by
  unfold bindTarget
  infer_instance

instance : Total n (parenBindStmt r) := by
  unfold parenBindStmt
  infer_instance

instance (message : String) : Total n (branch r message) := by
  unfold branch
  infer_instance

instance : Total n (ifStmt r) := by
  unfold ifStmt
  infer_instance

instance : Total n (forPart r) := by
  have : Total n (parseSimpleStatement r) := Total.mono inferInstance
  unfold forPart
  infer_instance

instance : Total n (forHeader r) := by
  unfold forHeader
  infer_instance

instance : Total n (forStmt r) := by
  unfold forStmt
  infer_instance

instance : Total (n + 1) (statementForm r) := by
  unfold statementForm
  infer_instance

end

/-! ## Declarations -/

section

instance : Total n requireDeclTerminator := by
  unfold requireDeclTerminator
  infer_instance

instance : Total n parseLinkRegion := by
  unfold parseLinkRegion
  infer_instance

instance : Total n parseUseDecl := by
  unfold parseUseDecl
  infer_instance

instance : Total n parseDefaultDecorator := by
  unfold parseDefaultDecorator
  infer_instance

instance : Total n parseImplementsDecorator := by
  unfold parseImplementsDecorator
  infer_instance

instance (k : TokenKind) (m1 m2 m3 : String) (hk : (TokenKind.eof == k) = false) :
    Total n (decoratorArg k m1 m2 m3 hk) := by
  unfold decoratorArg
  infer_instance

instance : Total n parseDecorator := by
  unfold parseDecorator
  infer_instance

instance : Total n parseDecorators := by
  unfold parseDecorators
  infer_instance

/-- The decorators alone make a declaration only behind a consumed `@`. -/
instance : StrictOn parseDecorators Option.isSome := by
  apply strictOn_loopOn
  intro _
  constructor
  intro m s a t h hg
  obtain ⟨b, u, hu, ht⟩ := bind_some h
  rcases matchIf_run hu with ⟨rfl, hlt⟩ | ⟨rfl, rfl⟩
  · exact Nat.lt_of_le_of_lt ((_ : P _).reach ht).unread_le hlt
  · cases ht
    cases hg

instance (decl : P SyntaxNodeKind) [Strict decl] : Moves (declNode decl) := by
  unfold declNode
  infer_instance

instance (decl : P SyntaxNodeKind) [Total n decl] : Total n (declNode decl) := by
  unfold declNode
  infer_instance

variable (r : Rec)

instance : StrictOn (parseStaticDecl r) Option.isSome := by
  unfold parseStaticDecl
  infer_instance

variable [RecTotal n r] [RecStrict r]

instance (cp : Nat) : Total n (poolShape r cp) := by
  unfold poolShape
  infer_instance

instance : Total n (poolInit r) := by
  unfold poolInit
  infer_instance

instance : Total n (parsePoolDecl r) := by
  unfold parsePoolDecl
  infer_instance

instance : Total n (parseBindingDecl r) := by
  unfold parseBindingDecl
  infer_instance

instance : Total (n + 1) (parseStaticDecl r) := by
  unfold parseStaticDecl
  infer_instance

instance (isForeign : Bool) : Total n (parseRegion r isForeign) := by
  unfold parseRegion
  infer_instance

instance : Total n (parseRunRegion r) := by
  unfold parseRunRegion
  infer_instance

instance : Total (n + 1) (parseDeclForm r) := by
  have hlast : ∀ o : Option SyntaxNodeKind, Total (n + 1) (match o with
      | some kind => pure kind
      | none => fail "Expected declaration") := by
    intro o
    cases o <;> infer_instance
  unfold parseDeclForm
  infer_instance

instance : Total (n + 1) (parseDecl r) := by
  apply Total.bind_of inferInstance
  intro m s o t hs ht
  have hn : t.unread < n + 1 := Nat.lt_of_le_of_lt (parseDecorators.reach ht).unread_le hs
  cases o with
  | some kind => exact ⟨_, _, rfl⟩
  | none =>
    have hform : Total (n + 1) (parseDeclForm r) := inferInstance
    exact hform.out m t hn

omit [RecTotal n r] [RecStrict r] in
instance : Strict (parseDeclForm r) := by
  have hlast : Strict (do
      match ← orReport (parseStaticDecl r) "Expected declaration" with
      | some kind => return kind
      | none => fail "Expected declaration") := by
    apply StrictOn.bind_of Option.isSome inferInstance
    intro o ho
    cases o with
    | some kind => cases ho
    | none => infer_instance
  unfold parseDeclForm
  infer_instance

omit [RecTotal n r] [RecStrict r] in
instance : Strict (parseDecl r) := by
  apply StrictOn.bind_of Option.isSome inferInstance
  intro o ho
  cases o with
  | some kind => cases ho
  | none => exact inferInstanceAs (Strict (parseDeclForm r))

end

/-! ## The circle -/

theorem binaryStep_run {r : Rec} {leftCp minPrec : Nat} {m : Mode} {s t : Parser} {b : Bool}
    (hb : bindsAt minPrec s.current.kind = true)
    (h : (binaryStep r leftCp minPrec).run m s = some (some b, t)) : b = true := by
  obtain ⟨op, s', hop, h⟩ := bind_some h
  cases hop
  obtain ⟨taken, u, hu, h⟩ := bind_some h
  have htaken : taken = true := by
    have hrun : (matchIf (bindsAt minPrec) (by simp [bindsAt, binopPrec])).run m s =
        some (some true, s.advance) := by
      simp only [matchIf, lift, hb, if_true]
    rw [hrun] at hu
    cases hu
    rfl
  subst htaken
  simp only [if_true] at h
  obtain ⟨_, _, _, h⟩ := bind_some h
  obtain ⟨_, _, _, h⟩ := bind_some h
  obtain ⟨_, _, _, h⟩ := bind_some h
  obtain ⟨_, _, _, h⟩ := bind_some h
  obtain ⟨_, _, _, h⟩ := bind_some h
  cases h
  rfl

/-- Called at an operator, `parse_binary_rhs` takes it. -/
theorem parseBinaryRhs_unread_lt {r : Rec} {leftCp minPrec : Nat} {m : Mode} {s t : Parser}
    (hb : bindsAt minPrec s.current.kind = true)
    (h : (parseBinaryRhs r leftCp minPrec).run m s = some (some (), t)) : t.unread < s.unread :=
  loop_unread_lt (binaryStep_run hb) h

instance recStrict_knot (n : Nat) : RecStrict (knot n) := by
  cases n with
  | zero => exact ⟨⟨nofun⟩, ⟨nofun⟩, ⟨nofun⟩, nofun, ⟨nofun⟩, ⟨nofun⟩⟩
  | succ n =>
    exact
      { expr := inferInstanceAs (Strict (parseExpression (knot n)))
        type := inferInstanceAs (Strict (parseTypeForm (knot n)))
        unary := inferInstanceAs (Strict (parseUnaryExpr (knot n)))
        binaryRhs := fun hb h => parseBinaryRhs_unread_lt hb h
        stmt := inferInstanceAs (Strict (statement (statementForm (knot n))).p)
        decl := inferInstanceAs (Strict (parseDecl (knot n))) }

/-- `n` calls deep is deep enough for fewer than `n` unread bytes. -/
instance recTotal_knot (n : Nat) : RecTotal n (knot n) := by
  induction n with
  | zero =>
    have htotal : ∀ {α : Type} (p : P α), Total 0 p := fun p => ⟨fun _ _ h => absurd h (Nat.not_lt_zero _)⟩
    exact ⟨htotal _, htotal _, htotal _, fun _ _ => htotal _, htotal _, htotal _⟩
  | succ n ih =>
    exact
      { expr := inferInstanceAs (Total (n + 1) (parseExpression (knot n)))
        type := inferInstanceAs (Total (n + 1) (parseTypeForm (knot n)))
        unary := inferInstanceAs (Total (n + 1) (parseUnaryExpr (knot n)))
        binaryRhs := fun cp minPrec =>
          inferInstanceAs (Total (n + 1) (parseBinaryRhs (knot n) cp minPrec))
        stmt := inferInstanceAs (Total (n + 1) (statement (statementForm (knot n))).p)
        decl := inferInstanceAs (Total (n + 1) (parseDecl (knot n))) }

/-! ## Programs -/

theorem recover_isSome {p : P SyntaxNodeKind} {m : Mode} {s t : Parser}
    {o : Option (Option SyntaxNodeKind)} (h : (recover p).run m s = some (o, t)) :
    o.isSome = true := by
  simp only [recover] at h
  split at h <;> cases h <;> rfl

/-- A declaration that fails leaves an error node, and the loop goes on. -/
theorem declNode_some {decl : P SyntaxNodeKind} {m : Mode} {s t : Parser} {o : Option Unit}
    (h : (declNode decl).run m s = some (o, t)) : o = some () := by
  have hcp : checkpoint.run m s = some (some s.items.length, s) := rfl
  unfold declNode at h
  rw [bind_run, hcp] at h
  dsimp only at h
  rw [bind_run] at h
  split at h
  · cases h
  · next hu => cases recover_isSome hu
  · cases h
    rfl

theorem programRun_total {decl : P SyntaxNodeKind} [ht : Total n decl] [hs : Strict decl] {m : Mode}
    {limit : Option Nat} {k count : Nat} {s : Parser} (hn : s.unread < n) (hk : s.unread < k) :
    ∃ r, programRun decl m limit k count s = some r := by
  induction k generalizing count s with
  | zero => omega
  | succ k ih =>
    unfold programRun
    split
    · exact ⟨_, rfl⟩
    next hne =>
    split
    · exact ⟨_, rfl⟩
    have htotal : Total n (declNode decl) := inferInstance
    have hmoves : Moves (declNode decl) := inferInstance
    obtain ⟨o, t, hrun⟩ := htotal.out m s hn
    obtain rfl := declNode_some hrun
    have hlt := hmoves.out hne hrun rfl
    simp only [hrun, hlt, if_true]
    exact ih (by omega) (by omega)

theorem parseWith_returns (src : List Char) (extra : Nat) (m : Mode) (limit : Option Nat) :
    ∃ r, parseWith (sufficientDepth src + extra) m limit src = some r := by
  have hn : (Parser.create src).unread < sufficientDepth src + extra := by
    have : (Parser.create src).unread ≤ src.length :=
      AccountLemmas.unread_advance_le_rest (Parser.init src)
    unfold sufficientDepth
    omega
  exact programRun_total hn (Nat.lt_succ_self _)

theorem parseSource_isSome (src : List Char) : (parseSource src).isSome = true := by
  obtain ⟨r, hr⟩ := parseWith_returns src 0 .code (some maxDeclLoop)
  have hr' : parseWith (sufficientDepth src) .code (some maxDeclLoop) src = some r := hr
  simp [parseSource, hr']

/-- `parse_source` returns on every text, well formed or not. In the model a loop round that
goes on without having consumed anything is the result `none`, and so is a chain of nested
calls longer than the call depth: neither occurs, however much depth there is. -/
theorem parse_ends (src : List Char) :
    (∃ r, parseSource src = some r) ∧
      ∀ extra, ∃ r, parseWith (sufficientDepth src + extra) .code (some maxDeclLoop) src = some r :=
  ⟨Option.isSome_iff_exists.mp (parseSource_isSome src),
    fun extra => parseWith_returns src extra .code (some maxDeclLoop)⟩

end Arche.Syntax
