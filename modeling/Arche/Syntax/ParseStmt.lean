import Arche.Syntax.ParseExpr

/-!
# Statements

`parse_simple_statement` with its binding tails, and the statement forms of
`parse_statement`. The recursion limit, the empty statement and the clean-up are
in `statement`.
-/

namespace Arche.Syntax

open P

/-- The right-hand side of a binding, which may not be an archetype. -/
def bindingValue (r : Rec) : P Unit := do
  let cp ← checkpoint
  r.expr
  if (← ask (·.singleNodeKind cp)) == .archExpr then
    fail ("archetypes must be declared at global scope — move this `arche \x7b … \x7d` shape " ++
      "out of the proc/block (anonymous `arche \x7b … \x7d` literals in expressions are fine)")

/-- `parse_binding_tail`, behind the first name. -/
def parseBindingTail (r : Rec) : P SyntaxNodeKind := do
  if ← matchTok .comma then
    loop do
      let stop ← ask fun s =>
        s.current.kind == .colon || s.current.kind == .eq || s.current.kind == .eof
      if stop then return false
      else
        expect .ident "Expected variable name in multi-value binding"
        matchTok .comma
    if ← matchTok .colon then expect .eq "Expected '=' after ':' in multi-value binding"
    else expect .eq "Expected ':=' or '=' in multi-value binding"
    r.expr
    return .multiBindStmt
  else if ← matchTok .colon then
    if ← matchTok .eq then bindingValue r
    else if ← matchTok .colon then
      optTok .alias
      bindingValue r
    else
      let form ← r.type
      if ← matchTok .colon then
        if form.isTypeMeta then parseType r else r.expr
      else if ← matchTok .eq then r.expr
    return .bindStmt
  else if ← matchTok .eq then
    r.expr
    return .bindStmt
  else fail "Expected ':' or '=' after variable name"

/-- One out-argument of a proc-call statement. -/
def outArg (r : Rec) : P Unit := do
  let cp ← checkpoint
  expect .ident "Expected out-argument name"
  if ← matchTok .colon then
    let bare ← ask fun s => s.current.kind == .rparen || s.current.kind == .comma
    if bare then pure () else parseType r
  wrap cp .outArg

def isAssignOp (k : TokenKind) : Bool :=
  k == .eq || k == .plusEq || k == .minusEq || k == .starEq || k == .slashEq || k == .percentEq

/-- What follows the leading expression of a simple statement, from the checkpoint before
it on. -/
def simpleTail (r : Rec) (cp : Nat) : P SyntaxNodeKind := do
  let kind ← ask (·.singleNodeKind cp)
  let atBinding ← ask fun s => s.current.kind == .colon || s.current.kind == .comma
  if kind == .nameExpr && atBinding then parseBindingTail r
  else if kind == .callExpr && (← check .lparen) then
    optTok .lparen
    if ← check .rparen then pure () else sepBy (outArg r) (some .rparen)
    expect .rparen "Expected ')' after out-arguments"
    return .procCallStmt
  else if ← matchIf isAssignOp then
    r.expr
    return .assignStmt
  else return .exprStmt

/-- `parse_simple_statement`. -/
def parseSimpleStatement (r : Rec) : P SyntaxNodeKind := do
  let cp ← checkpoint
  parseExpression r
  simpleTail r cp

/-- `break;` and `continue;` behind the keyword. -/
def jumpStmt (kind : SyntaxNodeKind) (message : String) : P SyntaxNodeKind := do
  closing .semi message
  return kind

/-- `#each_field x[: T] in A { … }` behind the keyword. -/
def eachFieldStmt (r : Rec) : P SyntaxNodeKind := do
  expect .ident "Expected binding name after 'each_field'"
  if ← matchTok .colon then parseType r
  expect .in_ "Expected 'in' after each_field binding"
  expect .ident "Expected archetype parameter name after 'in'"
  expect .lbrace "Expected '\x7b' to start each_field body"
  eachFieldBody r.stmt.p "Expected '\x7d' to close each_field body"
  return .eachFieldStmt

/-- `return …;` behind the keyword. -/
def returnStmt (r : Rec) : P SyntaxNodeKind := do
  if ← check .semi then pure ()
  else
    orReport r.expr "Expected expression after 'return'"
    loop do
      if ← more (some .semi) then
        orReport r.expr "Expected expression after ',' in return statement"
        return true
      else return false
  closing .semi "Expected ';' after return statement"
  return .returnStmt

/-- The pattern of a `match` arm and its `:`. -/
def armPattern : P Unit := do
  let isWild ← ask fun s => s.current.text == ['_']
  let isLiteral ← matchIf fun k => k == .number || k == .string || k == .charLit
  if isLiteral then pure ()
  else if ← matchTok .ident then
    if ← matchTok .dot then expect .ident "Expected an enum case after '.' in a match pattern"
    else if isWild then pure ()
    else
      fail ("a match arm names an enum value — qualify it `Enum.case` (a bare case name is not " ++
        "a value)")
  else fail "Expected match pattern (`Enum.case`, literal, or '_')"
  expect .colon "Expected ':' after match pattern"

/-- `match e { … }` behind the keyword. The restriction on `IDENT {` holds for the
scrutinee only. -/
def matchStmt (r : Rec) : P SyntaxNodeKind := do
  withoutBraceLit r.expr
  expect .lbrace "Expected '\x7b' after match scrutinee"
  matchArms armPattern (parseBlockBody r) r.stmt.p "Expected '\x7d' to close match"
  return .matchStmt

def maxTargets : Nat := 1000

/-- One target of `(x, y:, n: T) = e;`, with `n` targets before it. A missing name leaves
the loop, a malformed type fails. -/
def bindTarget (r : Rec) (n : Nat) : P (Bool × Nat) := do
  if n + 1 > maxTargets then
    report "Too many binding targets"
    return (false, n + 1)
  else if ← matchTok .ident then
    if ← matchTok .colon then
      let bare ← ask fun s => s.current.kind == .comma || s.current.kind == .rparen
      if bare then pure () else parseType r
    let again ← matchTok .comma
    return (again, n + 1)
  else
    report "Expected variable name in binding"
    return (false, n + 1)

/-- `(x, y:, n: T) = e;` behind its `(`. -/
def parenBindStmt (r : Rec) : P SyntaxNodeKind := do
  let _ ← loopOn 0 fun n => do
    let stop ← ask fun s => s.current.kind == .rparen || s.current.kind == .eof
    if stop then return (false, n) else bindTarget r n
  expect .rparen "Expected ')' after binding targets"
  expect .eq "Expected '=' after binding targets"
  r.expr
  closing .semi "Expected ';' after binding statement"
  return .multiBindStmt

/-- The body of an `if` or of its `else`: a block, or exactly one statement whose failure
is passed over. -/
def branch (r : Rec) (message : String) : P Unit := do
  if ← matchTok .lbrace then bodyUntilBrace r.stmt message
  else
    let _ ← attempt r.stmt.p

/-- `if (e) … [else …]` behind the keyword. -/
def ifStmt (r : Rec) : P SyntaxNodeKind := do
  expect .lparen "Expected '(' after 'if'"
  r.expr
  expect .rparen "Expected ')' after if condition"
  branch r "Expected '\x7d' after if body"
  if ← matchTok .else_ then branch r "Expected '\x7d' after else body"
  return .ifStmt

/-- The init or increment of a `for` header. -/
def forPart (r : Rec) : P Unit := do
  let cp ← checkpoint
  let kind ← parseSimpleStatement r
  wrap cp kind

/-- `init; cond; incr) {` of a `for` header behind its `(`. -/
def forHeader (r : Rec) : P Unit := do
  if ← check .semi then pure () else forPart r
  expect .semi "Expected ';' in for loop"
  if ← check .semi then pure () else r.expr
  expect .semi "Expected ';' in for loop"
  if ← check .rparen then pure () else forPart r
  expect .rparen "Expected ')' after for clause"
  expect .lbrace "Expected '\x7b'"

/-- `for { … }` or `for (…) { … }` behind the keyword. -/
def forStmt (r : Rec) : P SyntaxNodeKind := do
  if ← matchTok .lbrace then pure ()
  else if ← matchTok .lparen then forHeader r
  else
    fail ("for-in is not supported — iterate with a `map` (over an archetype) or a " ++
      "C-style `for (init; cond; incr)`")
  bodyUntilBrace r.stmt "Expected '\x7d'"
  return .forStmt

/-- The forms of `parse_statement` other than `;`. -/
def statementForm (r : Rec) : P SyntaxNodeKind := do
  if ← matchTok .break_ then jumpStmt .breakStmt "Expected ';' after break"
  else if ← matchTok .continue_ then jumpStmt .continueStmt "Expected ';' after continue"
  else if ← matchTok .eachField then eachFieldStmt r
  else if ← matchTok .return_ then returnStmt r
  else if ← matchTok .match_ then matchStmt r
  else if ← matchTok .lbrace then
    bodyUntilBrace r.stmt "Expected '\x7d'"
    return .block
  else if ← matchTok .lparen then parenBindStmt r
  else if ← check .let_ then
    failPast .let_ ("`let` was removed — write a bare binding: `x := expr`, `x: T = expr`, or " ++
      "`a, b := expr`")
  else if ← matchTok .if_ then ifStmt r
  else if ← matchTok .for_ then forStmt r
  else
    let kind ← parseSimpleStatement r
    closing .semi "Expected ';' after statement"
    return kind

/-- `parse_statement`. -/
def parseStatement (r : Rec) : StmtParser := statement (statementForm r)

end Arche.Syntax
