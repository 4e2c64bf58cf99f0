import Arche.Syntax.ParseForms

/-!
# Expressions

Primary expressions with their first postfix group, the chained postfix groups,
the prefix operators, and precedence climbing over the binary operators.
-/

namespace Arche.Syntax

open P

/-- `parse_bracket_index_or_slice`, behind its `[`. The result is `out_slice`. -/
def parseBracketIndexOrSlice (r : Rec) : P Bool := do
  let isSlice ←
    if ← matchTok .colon then
      if ← check .rbracket then pure () else r.expr
      pure true
    else
      r.expr
      if ← matchTok .colon then
        if ← check .rbracket then pure () else r.expr
        pure true
      else if ← check .comma then
        fail ("multi-dimensional indexing is chained `a[i][j]` (one index per bracket), not " ++
          "comma `a[i, j]` — so each index can take its own failure policy")
      else pure false
  expect .rbracket "Expected ']'"
  return isSlice

/-- `parse_opt_eff`. -/
def parseOptEff : P Bool := do
  let cp ← checkpoint
  if ← ask (·.curIdentIs "eff") then
    optTok .ident
    wrap cp .eff
    return true
  else return false

/-- `parse_opt_row_bind`. Its callers drop the result. -/
def parseOptRowBind : P Unit := do
  if ← ask (·.curIdentIs "as") then
    optTok .ident
    let _ ← attempt (nameNode .queryBind
      "Expected a name after 'as' — `map (query \x7b…\x7d as w) eff` binds the matched row as `w`")

/-- `parse_opt_writes`. Its callers drop the result. -/
def parseOptWrites : P Unit := do
  let _ ← attempt do
    if ← matchTok .lparen then
      if ← check .rparen then pure ()
      else
        sepBy (nameNode .writeParam
          "Expected a column name in the `(writes)` list — `map (Movers) (pos, vel) \x7b … \x7d`")
          (some .rparen)
      expect .rparen "Expected ')' to close the `(writes)` list"

/-- The query in the parentheses of a `map` or a `system`: a literal or a name. -/
def parseQueryThing (message : String) : P Unit := do
  let cp ← checkpoint
  if ← matchTok .query then
    parseQueryColumns
    wrap cp .queryExpr
  else
    expect .ident message
    wrap cp .queryRef

/-! ## Primary expressions -/

/-- `{ e, … }` behind its `{`. -/
def parseArrayLit (r : Rec) : P SyntaxNodeKind := do
  if ← check .rbrace then pure () else sepBy r.expr (some .rbrace)
  expect .rbrace "Expected '\x7d' after array literal"
  return .arrayLitExpr

/-- `archetype { … }` behind its keyword. -/
def parseArchExpr (r : Rec) : P SyntaxNodeKind := do
  expect .lbrace "Expected '\x7b' after 'archetype'"
  archFields r
  closing .rbrace "Expected '\x7d'"
  return .archExpr

/-- `map (…) …` behind its keyword. -/
def parseMapExpr (r : Rec) : P SyntaxNodeKind := do
  expect .lparen "Expected '(' after 'map'"
  parseQueryThing
    "Expected a query in `map(...)` — a name `map(Movers)` or a literal `map(query \x7b…\x7d)`"
  parseOptRowBind
  if ← check .comma then
    fail ("maps don't support joins — a map runs over ONE query; to combine pools, nest a " ++
      "`map (…) eff` inside another (cross-pool work is explicit nesting, not a join)")
  else
    expect .rparen "Expected ')'"
    parseOptWrites
    let isEach ← parseOptEff
    parseBlockBody r
    return if isEach then .eachExpr else .mapExpr

/-- `system …` behind its keyword. -/
def parseSystemExpr (r : Rec) : P SyntaxNodeKind := do
  if ← matchTok .lparen then
    sepBy (do
      parseQueryThing ("Expected a query in `system(...)` — a name `system(Drawables)` or a " ++
        "literal `system(query \x7b…\x7d)`")
      parseOptRowBind) none
    expect .rparen "Expected ')'"
    parseOptWrites
  let _ ← parseOptEff
  parseBlockBody r
  return .systemExpr

/-- One variant of an `enum`. -/
def enumVariant : P Unit := do
  let cp ← checkpoint
  expect .ident "Expected enum variant name"
  if ← matchTok .eq then expect .number "Expected integer after '=' in enum variant"
  wrap cp .enumVariant

/-- `enum { … }` behind its keyword. -/
def parseEnumExpr : P SyntaxNodeKind := do
  expect .lbrace "Expected '\x7b' after 'enum'"
  if ← check .rbrace then pure ()
  else
    loop do
      if ← check .rbrace then return false
      else
        enumVariant
        more (some .rbrace)
  expect .rbrace "Expected '\x7d' to close enum"
  return .enumExpr

/-- One variant of a `sum`, with its optional separator. -/
def sumVariant (r : Rec) : P Unit := do
  let cp ← checkpoint
  expect .ident "Expected sum variant name"
  if ← matchTok .lparen then
    if ← check .rparen then pure () else sepBy (parseType r) none
    expect .rparen "Expected ')' to close sum variant payload"
  wrap cp .sumVariant
  optTok .comma

/-- `sum { … }` behind its `{`. -/
def parseSumExpr (r : Rec) : P SyntaxNodeKind := do
  untilTok .rbrace do
    sumVariant r
    return true
  expect .rbrace "Expected '\x7d' to close sum"
  return .sumExpr

/-- The elements of a tuple or a parenthesised expression up to its `)`: how many. `trailing`
stops before a `)` that follows a comma. -/
def countExprs (r : Rec) (trailing : Bool) : P Nat := do
  if ← check .rparen then return 0
  else
    loopOn 0 fun n => do
      if ← check .rparen then return (false, n)
      else
        r.expr
        let again ← more (if trailing then some .rparen else none)
        return (again, n + 1)

/-- One `field: value` of an entity literal. -/
def entityField (r : Rec) : P Unit := do
  nameNode .fieldName "Expected field name in entity literal"
  expect .colon "Expected ':' after field name in entity literal"
  let cp ← checkpoint
  if ← matchTok .lparen then
    let n ← countExprs r true
    expect .rparen "Expected ')' to close tuple value"
    wrap cp (if n > 1 then .tupleLit else .parenExpr)
  else r.expr

/-- `Name { field: value, … }` behind its `{`. -/
def parseEntityExpr (r : Rec) : P SyntaxNodeKind := do
  if ← check .rbrace then pure ()
  else
    loop do
      if ← check .rbrace then return false
      else
        entityField r
        more (some .rbrace)
  expect .rbrace "Expected '\x7d' to close entity literal"
  return .entityExpr

/-- `f(args)` behind its `(`, without the operator of a collective. -/
def parseArgs (r : Rec) : P SyntaxNodeKind := do
  if ← check .rparen then pure () else sepBy r.expr (some .rparen)
  expect .rparen "Expected ')' after arguments"
  return .callExpr

/-- The index or slice behind a consumed `[`. -/
def parseIndex (r : Rec) : P SyntaxNodeKind := do
  let isSlice ← parseBracketIndexOrSlice r
  return if isSlice then .sliceExpr else .indexExpr

/-- `a.b.c`, `a.b.c[i]`, `mod.f(args)` behind the first `.`. -/
def parseFieldChain (r : Rec) : P SyntaxNodeKind := do
  nameNode .fieldName "Expected field name after '.'"
  whileTok .dot (nameNode .fieldName "Expected field name after '.'")
  if ← matchTok .lbracket then parseIndex r
  else if ← matchTok .lparen then parseArgs r
  else return .fieldExpr

/-- The arguments of a plain call behind its `(`. `reduce` and `scan` take an operator
first. -/
def parseCall (r : Rec) (isCollective : Bool) : P SyntaxNodeKind := do
  if ← check .rparen then pure ()
  else
    let cp ← checkpoint
    let isOp ← ask fun s => s.current.kind == .plus || s.current.kind == .star
    if isCollective && isOp then
      let _ ← matchIf fun k => k == .plus || k == .star
      wrap cp .literalExpr
      optTok .comma
    loop do
      if ← check .rparen then return false
      else
        r.expr
        more (some .rparen)
  expect .rparen "Expected ')' after arguments"
  return .callExpr

/-- A primary that starts with an identifier, behind the identifier at `cp`. -/
def parseNamePrimary (r : Rec) (cp : Nat) (isTable isSum isCollective : Bool) :
    P SyntaxNodeKind := do
  let noBraceLit ← ask (·.noBraceLit)
  if isTable && (← check .lt) then
    optTok .lt
    expect .ident "Expected archetype name in 'table<'"
    expect .gt "Expected '>' after archetype name in 'table<...>'"
    return .nameExpr
  else if isSum && (← check .lbrace) then
    optTok .lbrace
    parseSumExpr r
  else if !noBraceLit && (← check .lbrace) then
    optTok .lbrace
    parseEntityExpr r
  else if ← matchTok .dot then parseFieldChain r
  else if ← matchTok .lbracket then parseIndex r
  else if ← check .lparen then
    wrap cp .calleeName
    optTok .lparen
    parseCall r isCollective
  else return .nameExpr

/-- `( e )` or `( e, … )` behind its `(`; it wraps itself. -/
def parseParen (r : Rec) (cp : Nat) : P Unit := do
  let n ← countExprs r false
  closing .rparen "Expected ')' after expression"
  wrap cp (if n > 1 then .tupleLit else .parenExpr)

/-- `parse_primary_expr`: the kind to wrap the primary by. -/
def parsePrimaryExpr (r : Rec) : P SyntaxNodeKind := do
  let cp ← checkpoint
  let isTable ← ask (·.curIdentIs "table")
  let isSum ← ask (·.curIdentIs "sum")
  let isCollective ← ask fun s => s.curIdentIs "reduce" || s.curIdentIs "scan"
  if ← matchTok .number then return .literalExpr
  else if ← matchTok .string then return .stringExpr
  else if ← matchTok .charLit then return .literalExpr
  else if ← matchTok .lbrace then parseArrayLit r
  else if ← matchTok .proc then
    if ← matchTok .lbrace then parseGroupForm
    else parseProcForm r (← ask (·.inForeign))
  else if ← matchTok .func then
    if ← matchTok .lbrace then parseGroupForm else parseFuncForm r
  else if ← matchTok .policy then parsePolicyForm r
  else if ← matchTok .archetype then parseArchExpr r
  else if ← matchTok .query then
    parseQueryColumns
    return .queryExpr
  else if ← matchTok .map then parseMapExpr r
  else if ← matchTok .system then parseSystemExpr r
  else if ← matchTok .enum then parseEnumExpr
  else if ← matchTok .ident then parseNamePrimary r cp isTable isSum isCollective
  else if ← matchTok .lparen then
    parseParen r cp
    return .nameExpr
  else fail "Expected expression"

/-! ## Postfix chains and prefix operators -/

/-- The node kinds a failure policy can follow. -/
def takesPolicy (kind : SyntaxNodeKind) : Bool :=
  kind == .indexExpr || kind == .sliceExpr || kind == .callExpr

/-- `parse_opt_policy`. -/
def parseOptPolicy (kind : SyntaxNodeKind) : P Unit := do
  let cp ← checkpoint
  let atSigil ← ask fun s => s.current.kind == .bang || s.current.kind == .question
  if takesPolicy kind && atSigil then
    let _ ← matchIf fun k => k == .bang || k == .question
    expect .ident
      "Expected a policy name after the sigil (e.g. `a[i] !clamp`, `insert(P,x) ?reject`)"
    wrap cp .policyRef

/-- One further postfix group over the node parsed so far: `.a.b` or `[…]`. -/
def postfixGroup (r : Rec) (cp : Nat) (kind : SyntaxNodeKind) : P (Bool × SyntaxNodeKind) := do
  let chains ← ask fun s =>
    (takesPolicy kind || kind == .fieldExpr) &&
      (s.current.kind == .dot || s.current.kind == .lbracket)
  if !chains then return (false, kind)
  else
    wrap cp kind
    if ← matchTok .dot then
      nameNode .fieldName "Expected field name after '.'"
      whileTok .dot (nameNode .fieldName "Expected field name after '.'")
      return (true, .fieldExpr)
    else if ← matchTok .lbracket then
      let kind' ← parseIndex r
      parseOptPolicy kind'
      return (true, kind')
    else return (false, kind)

/-- A primary with all its postfix groups, wrapped. -/
def parsePostfix (r : Rec) : P Unit := do
  let cp ← checkpoint
  let kind ← parsePrimaryExpr r
  parseOptPolicy kind
  let kind' ← loopOn kind (postfixGroup r cp)
  if ← ask (·.singleNode cp) then return ()
  else wrap cp kind'

/-- `parse_unary_expr`. -/
def parseUnaryExpr (r : Rec) : P Unit := do
  let cp ← checkpoint
  if ← matchIf fun k => k == .move || k == .copy then
    r.unary
    wrap cp .unaryExpr
  else if ← matchIf fun k => k == .minus || k == .bang then
    r.unary
    wrap cp .unaryExpr
  else parsePostfix r

/-! ## Binary operators -/

/-- `binop_prec`, with `0` for the tokens that are no binary operator (the source has `-1`;
every `min_prec` is at least `1`). -/
def binopPrec : TokenKind → Nat
  | .star | .slash | .percent => 5
  | .plus | .minus => 4
  | .lt | .gt | .ltEq | .gtEq | .eqEq | .bangEq => 3
  | .ampAmp => 2
  | .pipePipe => 1
  | .pipeGt => 1
  | _ => 0

/-- The failure policy of a division, `a / b !policy`. -/
def divPolicy (op : TokenKind) : P Unit := do
  let cp ← checkpoint
  if (op == .slash || op == .percent) && (← check .bang) then
    optTok .bang
    expect .ident "Expected a policy name after '!' (e.g. `a / b !zero`)"
    wrap cp .policyRef

/-- An operator that binds at least as tightly as `minPrec`. -/
def bindsAt (minPrec : Nat) (k : TokenKind) : Bool :=
  decide (0 < binopPrec k) && decide (minPrec ≤ binopPrec k)

/-- Fold a tighter operator into the right operand. -/
def tighterRhs (r : Rec) (rightCp minPrec : Nat) : P Bool := do
  if ← ask fun s => bindsAt minPrec s.current.kind then
    r.binaryRhs rightCp minPrec
    return true
  else return false

/-- One round of `parse_binary_rhs`: an operator of at least `minPrec` and its right
operand. -/
def binaryStep (r : Rec) (leftCp minPrec : Nat) : P Bool := do
  let op ← ask (·.current.kind)
  if ← matchIf (bindsAt minPrec) (by simp [bindsAt, binopPrec]) then
    let rightCp ← checkpoint
    r.unary
    loop (tighterRhs r rightCp (binopPrec op + 1))
    divPolicy op
    wrap leftCp .binaryExpr
    return true
  else return false

/-- `parse_binary_rhs`. -/
def parseBinaryRhs (r : Rec) (leftCp minPrec : Nat) : P Unit :=
  loop (binaryStep r leftCp minPrec)

/-- `parse_expression`. -/
def parseExpression (r : Rec) : P Unit := do
  let leftCp ← checkpoint
  parseUnaryExpr r
  parseBinaryRhs r leftCp 1

end Arche.Syntax
