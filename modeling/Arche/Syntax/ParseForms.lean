import Arche.Syntax.StatementLoops

/-!
# Types, signatures and bodies

The functions of `parser.c` up to the declarations, in the order of the source.
Functions that call each other in a circle get the circle as a record `r : Rec`
of actions; `Parser` ties the knot.

`if (!check(K)) { error(m); return 0; } advance();` and
`if (!match(K)) { error(m); return 0; }` are both `expect K m`.
-/

namespace Arche.Syntax

open P

/-- `TypeForm`. -/
structure TypeForm where
  syntaxKind : SyntaxNodeKind
  isTypeMeta : Bool

/-- The functions that call each other in a circle. A `parse_*` that returns `0` for the
empty statement only is a `StmtParser`. -/
structure Rec where
  expr : P Unit
  type : P TypeForm
  unary : P Unit
  binaryRhs : Nat → Nat → P Unit
  stmt : StmtParser
  decl : P SyntaxNodeKind

/-- `parse_type`. -/
def parseType (r : Rec) : P Unit := do
  let _ ← r.type

/-- A name that is wrapped on its own. -/
def nameNode (kind : SyntaxNodeKind) (message : String) : P Unit := do
  let cp ← checkpoint
  expect .ident message
  wrap cp kind

/-- The optional token `k`, as in a bare `match(k);`. -/
def optTok (k : TokenKind)
    (hk : (TokenKind.eof == k) = false := by exact notEof _ rfl_false) : P Unit := do
  let _ ← matchTok k hk

/-! ## Signatures -/

/-- One in-parameter of `parse_param_list_body`. -/
def paramNode (r : Rec) : P Unit := do
  let cp ← checkpoint
  optTok .own
  nameNode .paramName "Expected parameter name"
  expect .colon "Expected ':' after parameter name"
  parseType r
  wrap cp .param

/-- `parse_param_list_body`. -/
def parseParamListBody (r : Rec) (isExtern : Bool) : P Unit := do
  if ← check .rparen then return ()
  else
    loop do
      if ← check .dotdotdot then
        if !isExtern then
          report "`...` variadic marker is only valid in extern signatures"
        optTok .dotdotdot
        return false
      else
        paramNode r
        more (some .rparen)

/-- One out-parameter of `parse_proc_out_list`. -/
def outParamNode (r : Rec) : P Unit := do
  let cp ← checkpoint
  if ← check .own then
    fail "an out-parameter is owned by definition — drop `own`"
  else
    nameNode .paramName "Expected out-parameter name"
    expect .colon "Expected ':' after out-parameter name"
    parseType r
    wrap cp .outParam

/-- `parse_proc_out_list`. -/
def parseProcOutList (r : Rec) : P Unit := do
  if ← check .arrow then
    fail ("a proc has no return type (`->` is a func-only marker) — declare results as " ++
      "out-parameters in a `(...)` list")
  else if ← matchTok .lparen then
    if ← check .rparen then pure () else sepBy (outParamNode r) (some .rparen)
    expect .rparen "Expected ')' after out-parameters"
  else return ()

/-- `parse_func_return`. -/
def parseFuncReturn (r : Rec) (isExtern : Bool) : P Unit := do
  if ← matchTok .arrow then
    if ← check .lparen then
      fail ("a `->` return is a single type; for multiple results drop the `->` and write an " ++
        "out-parameter list `(out, …)` instead")
    else parseType r
  else if ← check .lparen then parseProcOutList r
  else if isExtern then return ()
  else fail "Expected '->' or an out-parameter list '(...)'"

/-- `parse_proc_sig`. -/
def parseProcSig (r : Rec) (isExtern : Bool) : P Unit := do
  expect .lparen "Expected '(' after 'proc'"
  parseParamListBody r isExtern
  expect .rparen "Expected ')' after parameters"
  parseProcOutList r

/-- `parse_func_sig`. -/
def parseFuncSig (r : Rec) (isExtern : Bool) : P Unit := do
  expect .lparen "Expected '(' after 'func'"
  parseParamListBody r isExtern
  expect .rparen "Expected ')' after parameters"
  parseFuncReturn r isExtern

/-! ## Types -/

/-- One bracket of a prefix array type. `stop` is the `return 1` in the middle of it. -/
inductive Dim where
  | slice
  | number
  | stop
  deriving DecidableEq

/-- The dimension behind a consumed `[`. -/
def parseDim (r : Rec) : P Dim := do
  if ← matchTok .rbracket then return .slice
  else if (← attempt r.expr).isNone then return .stop
  else if ← matchTok .rbracket then return .number
  else
    report "Expected ']' after array size expression"
    return .stop

/-- The further dimensions, after `d`. The result says whether some dimension had a size. -/
def parseDims (r : Rec) (d : Dim) : P Dim :=
  loopOn d fun d => do
    if d = .stop then return (false, .stop)
    else if ← matchTok .lbracket then
      let d' ← parseDim r
      return (true, if d' = .slice then d else d')
    else return (false, d)

/-- The prefix array or slice type `[]T`, `[N]T`, behind its first `[`. -/
def parseArrayType (r : Rec) : P TypeForm := do
  let first ← parseDim r
  let dims ← parseDims r first
  if dims = .stop then return ⟨.typeRef, false⟩
  else
    expect .ident "Expected element type name after array brackets (e.g. `[]int`)"
    if ← matchTok .dot then
      expect .ident "Expected type name after '.' in qualified element type"
    return ⟨if dims = .number then .typeShapedArray else .typeArray, false⟩

/-- A type that starts with a name: a plain or qualified one, `handle<A>`, `Eff(T…)`, or
one of the bare categories. -/
def parseNamedType (r : Rec) : P TypeForm := do
  let isHandle ← ask (·.curIdentIs "handle")
  let isEff ← ask (·.curIdentIs "Eff")
  let isTypeKw ← ask (·.curIdentIs "type")
  let isArchetype ← ask (·.curIdentIs "archetype")
  let isOpaque ← ask (·.curIdentIs "opaque")
  expect .ident "Expected type name"
  if isArchetype || isOpaque then return ⟨.typeRef, false⟩
  else if !isHandle && !isTypeKw && (← check .dot) then
    optTok .dot
    expect .ident "Expected type name after '.' in qualified type (e.g. io.file)"
    return ⟨.typeRef, false⟩
  else if isTypeKw then return ⟨.typeRef, true⟩
  else if isHandle && (← check .lt) then
    optTok .lt
    expect .ident "Expected archetype name after 'handle<'"
    expect .gt "Expected '>' after archetype name in handle type"
    return ⟨.typeHandle, false⟩
  else if isEff && (← check .lparen) then
    optTok .lparen
    if ← check .rparen then pure () else sepBy (parseType r) none
    expect .rparen "Expected ')' to close the Eff(...) out-slot type list"
    return ⟨.typeEff, false⟩
  else return ⟨.typeRef, false⟩

/-- `parse_type_inner`. -/
def parseTypeInner (r : Rec) : P TypeForm := do
  if ← matchTok .proc then
    parseProcSig r false
    return ⟨.typeProc, true⟩
  else if ← matchTok .func then
    parseFuncSig r false
    return ⟨.typeFunc, true⟩
  else if ← matchTok .system then return ⟨.typeRef, true⟩
  else if ← matchTok .lbracket then parseArrayType r
  else parseNamedType r

/-- The kind `parse_type_inner` leaves behind when it fails. -/
def failedTypeKind (s : Parser) : SyntaxNodeKind :=
  if s.current.kind = .proc then .typeProc
  else if s.current.kind = .func then .typeFunc
  else .typeRef

/-- `parse_type_form`: the node is made also when the type is malformed. -/
def parseTypeForm (r : Rec) : P TypeForm := do
  let cp ← checkpoint
  let failedKind ← ask failedTypeKind
  let form ← orWrap (parseTypeInner r) cp failedKind
  wrap cp form.syntaxKind
  return form

/-- `parse_tuple_name_group`, behind its `(`. -/
def parseTupleNameGroup (r : Rec) : P Unit := do
  let anyName ← check .ident
  untilTok .rparen do
    if ← matchTok .ident then matchTok .comma
    else
      report "Expected a name in tuple group `(a, b, …)`"
      return false
  if !anyName then
    fail "Empty tuple group `()`: a tuple needs at least one name, e.g. `pos (x, y) :: T`"
  else
    expect .rparen "Expected ')' to close tuple name group"
    expect .colon "Expected `::` and a shared type after tuple name group `(a, b) :: T`"
    expect .colon "Expected `::` and a shared type after tuple name group `(a, b) :: T`"
    let isValue ← ask fun s => s.current.kind == .lparen || s.current.kind == .number ||
      s.current.kind == .string || s.current.kind == .minus
    if isValue then r.expr else parseType r

/-- `parse_arch_field`. -/
def parseArchField (r : Rec) : P Unit := do
  nameNode .fieldName "Expected field name"
  if ← matchTok .lparen then
    parseTupleNameGroup r
    optTok .comma
  else if ← matchTok .colon then
    if ← matchTok .colon then pure ()
    else if ← ask (·.curIdentIs "type") then
      optTok .ident
      expect .colon "expected `:` after `type`: write `name : type : T`"
    else
      fail ("archetype components are types: write `name :: type` to define a component, " ++
        "or a bare type name to reference one (`name: type` is not valid)")
    parseType r
    optTok .comma
  else optTok .comma

/-- The fields of an archetype. A malformed one leaves the loop. -/
def archFields (r : Rec) : P Unit :=
  untilTok .rbrace do return (← attempt (parseArchField r)).isSome

/-- `parse_query_columns`. -/
def parseQueryColumns : P Unit := do
  expect .lbrace "Expected '\x7b' after 'query'"
  if ← check .rbrace then pure ()
  else
    loop do
      if ← check .rbrace then return false
      else
        let cp ← checkpoint
        nameNode .paramName "Expected a column name"
        wrap cp .param
        more (some .rbrace)
  expect .rbrace "Expected '\x7d' to close query"

/-! ## Bodies and the forms that have one -/

/-- `parse_block_body`. -/
def parseBlockBody (r : Rec) : P Unit := do
  expect .lbrace "Expected '\x7b'"
  bodyUntilBrace r.stmt "Expected '\x7d'"

/-- `parse_proc_form`. -/
def parseProcForm (r : Rec) (isExtern : Bool) : P SyntaxNodeKind := do
  parseProcSig r isExtern
  if ← check .lbrace then
    if isExtern then
      fail ("a proc inside a `#foreign` region is an FFI declaration and has no body — " ++
        "remove the `\x7b ... \x7d` (or move it out of the `#foreign` region)")
    else
      parseBlockBody r
      return .procExpr
  else return if isExtern then .procExpr else .typeProc

/-- `parse_func_form`. -/
def parseFuncForm (r : Rec) : P SyntaxNodeKind := do
  parseFuncSig r false
  if ← check .lbrace then
    parseBlockBody r
    return .funcExpr
  else return .typeFunc

/-- `parse_policy_form`. -/
def parsePolicyForm (r : Rec) : P SyntaxNodeKind := do
  expect .lparen "Expected '(' after 'policy'"
  parseParamListBody r false
  expect .rparen "Expected ')' after policy parameters"
  if ← matchTok .arrow then parseType r
  if ← check .lbrace then
    parseBlockBody r
    return .policyExpr
  else fail "a `policy` must have a body `\x7b ... \x7d`"

/-- `parse_group_form`, behind its `{`. -/
def parseGroupForm : P SyntaxNodeKind := do
  if ← check .rbrace then fail "group must have at least one member"
  else
    sepBy (expect .ident "Expected member name in group") (some .rbrace)
    expect .rbrace "Expected '\x7d' or ',' in group member list"
    return .groupExpr

end Arche.Syntax
