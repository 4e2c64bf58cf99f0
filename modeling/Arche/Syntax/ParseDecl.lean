import Arche.Syntax.ParseStmt

/-!
# Declarations and programs

The top-level forms of `parser.c`, the knot of the mutually recursive functions,
and `parse_source`.
-/

namespace Arche.Syntax

open P

/-- `require_decl_terminator`: a `}` ends a declaration on its own. -/
def requireDeclTerminator : P Unit := do
  if ← matchTok .semi then return ()
  else if ← ask (·.previous.kind == .rbrace) then return ()
  else report "expected `;` to end the declaration"

/-- `arche { … }` as the shape of a pool, behind its keyword at `cp`. -/
def poolShape (r : Rec) (cp : Nat) : P Unit := do
  expect .lbrace "Expected '\x7b' after 'archetype'"
  archFields r
  expect .rbrace "Expected '\x7d' after archetype fields"
  wrap cp .archExpr

/-- The `{ field: value, … }` of a pool behind its `{`. A malformed field leaves the loop. -/
def poolInit (r : Rec) : P Unit := do
  if ← check .rbrace then pure ()
  else
    loop do
      let field ← attempt do
        expect .ident "Expected field name in pool init block"
        expect .colon "Expected ':' after field name in pool init block"
        orReport r.expr "Expected expression after ':' in pool init block"
      if field.isSome then more (some .rbrace) else return false
  closing .rbrace "Expected '\x7d' after pool init block"

/-- `[C]Name(N){V} ?handler` behind its `[`. -/
def parsePoolDecl (r : Rec) : P SyntaxNodeKind := do
  r.expr
  expect .rbracket "Expected ']' after pool capacity in `[C]Name`"
  let cp ← checkpoint
  let shaped ← matchTok .archetype
  if shaped then poolShape r cp
  else
    expect .ident
      "Expected an archetype name or `arche \x7b…\x7d` after pool capacity (e.g. `[8]Particle`)"
    whileTok .dot (expect .ident "expected an identifier after `.` in a qualified pool name")
  if ← matchTok .lparen then
    r.expr
    closing .rparen "Expected ')' after pool live-count in `[C]Name(N)`"
  let initialised ← matchTok .lbrace
  if initialised then poolInit r
  let polCp ← checkpoint
  if ← matchTok .question then
    expect .ident
      "Expected a handler name after '?' on a pool decl (e.g. `[8]Foo ?evict_oldest`)"
    wrap polCp .policyRef
  if shaped || initialised then optTok .semi else requireDeclTerminator
  return .staticDecl

/-- `name : …` behind its first `:`. -/
def parseBindingDecl (r : Rec) : P SyntaxNodeKind := do
  if ← matchTok .eq then
    r.expr
    requireDeclTerminator
    return .staticDecl
  else
    let form ← if ← check .colon then pure none else some <$> r.type
    if ← matchTok .eq then
      r.expr
      requireDeclTerminator
      return .staticDecl
    else if form.isSome && !(← check .colon) then
      requireDeclTerminator
      return .staticDecl
    else
      expect .colon "expected `:` and a value: write `name :: value` or `name : T : value`"
      if (form.map (·.isTypeMeta)).getD false then parseType r
      else
        optTok .alias
        if ← check .lbracket then parseType r else r.expr
      requireDeclTerminator
      return .constDecl

/-- `parse_static_decl`; `none` is a `return 0` without an error of its own. -/
def parseStaticDecl (r : Rec) : P (Option SyntaxNodeKind) := do
  if ← matchTok .lbracket then some <$> parsePoolDecl r
  else if ← matchTok .ident then
    if ← matchTok .lparen then
      parseTupleNameGroup r
      requireDeclTerminator
      return some .constDecl
    else if ← matchTok .colon then some <$> parseBindingDecl r
    else return none
  else return none

/-- A declaration as a child of a region or of the file. One that fails becomes an error
node over everything up to the place parsing goes on from. -/
def declNode (decl : P SyntaxNodeKind) : P Unit := do
  let cp ← checkpoint
  let kind ← recover decl
  wrap cp (kind.getD .error)

/-- `parse_region`. -/
def parseRegion (r : Rec) (isForeign : Bool) : P SyntaxNodeKind := do
  if ← matchTok .lbrace then
    let saved ← ask (·.inForeign)
    if isForeign then setInForeign true
    untilTok .rbrace do
      declNode r.decl
      return true
    setInForeign saved
    expect .rbrace "Expected '\x7d' to close the region block"
    return .region
  else
    if isForeign then setInForeign true
    return .region

/-- `parse_link_region`. -/
def parseLinkRegion : P SyntaxNodeKind := do
  expect .lbrace "expected `\x7b \"lib\" ... \x7d` after `#link`"
  if ← check .rbrace then
    fail "empty `#link \x7b \x7d` — list one or more quoted system-library names"
  else
    untilTok .rbrace do
      expect .string
        "expected a quoted system-library name in `#link \x7b ... \x7d` (e.g. \"X11\")"
      return true
    expect .rbrace "Expected '\x7d' to close `#link \x7b ... \x7d`"
    return .region

/-- `parse_run_region`. -/
def parseRunRegion (r : Rec) : P SyntaxNodeKind := do
  if ← matchTok .lbrace then
    if ← check .rbrace then fail "empty `#run \x7b \x7d` — list one or more Schedule expressions"
    else
      untilTok .rbrace do
        r.expr
        matchTok .comma
      expect .rbrace "expected '\x7d' to close `#run \x7b ... \x7d`"
      return .runDecl
  else
    orReport r.expr "expected a Schedule expression after `#run`"
    return .runDecl

/-- `#import …` behind its marker. -/
def parseUseDecl : P SyntaxNodeKind := do
  if ← matchTok .lbrace then
    if ← check .rbrace then fail "empty `#import \x7b \x7d` — list one or more module names"
    else
      untilTok .rbrace do
        expectIf (fun k => k == .ident || k == .string)
          "expected a device name or a \"path\" string in `#import \x7b ... \x7d`"
        return true
      expect .rbrace "Expected '\x7d' to close `#import \x7b ... \x7d`"
      return .useDecl
  else
    expectIf (fun k => k == .ident || k == .string) "Expected a module name after `#import`"
    loop (matchIf fun k => k == .ident || k == .string)
    if ← check .eof then return .useDecl
    else
      fail ("a bare `#import` region runs to end of file — everything below it must be a " ++
        "module name; use `#import \x7b ... \x7d` to import alongside other declarations")

/-! ## Decorators -/

/-- `(k)` with its three messages. -/
def decoratorArg (k : TokenKind) (m1 m2 m3 : String)
    (hk : (TokenKind.eof == k) = false := by exact notEof _ rfl_false) : P Unit := do
  expect .lparen m1
  expect k m2 hk
  expect .rparen m3

/-- `@default(kind, category, policy)` behind the word. -/
def parseDefaultDecorator : P Unit := do
  expect .lparen "Expected '(' after @default — e.g. @default(proc, bounds, abort)"
  expectIf (fun k => k == .proc || k == .func)
    "Expected an effect kind (proc or func) as the first @default argument"
  expect .comma "Expected ',' after the effect kind in @default(...)"
  expect .ident "Expected a category (bounds, divide, or pool) in @default(...)"
  expect .comma "Expected ',' after the category in @default(...)"
  expect .ident "Expected a policy name in @default(...)"
  expect .rparen "Expected ')' to close @default(...)"

/-- `@implements(a.b, …)` behind the word. -/
def parseImplementsDecorator : P Unit := do
  expect .lparen
    "Expected '(' after @implements — name a device requirement, e.g. @implements(physics.foo)"
  sepBy (do
    expect .ident "Expected a device requirement name inside @implements(...)"
    whileTok .dot (expect .ident "Expected an identifier after `.` in @implements(...)")) none
  expect .rparen "Expected ')' to close @implements(...)"

/-- The decorator behind its `@`. `some` is the directive `@default`, which is a declaration
of its own. -/
def parseDecorator : P (Option SyntaxNodeKind) := do
  if ← matchTok .policy then
    decoratorArg .ident "Expected '(' after @policy — name the category, e.g. @policy(bounds)"
      "Expected a category (bounds, pool, or divide) inside @policy(...)"
      "Expected ')' to close @policy(...)"
    return none
  else
    let word ← ask (·.current.text)
    let known : List String := ["allow_pure_proc", "intrinsic", "gpu", "resident", "default",
      "drop", "syscall", "allow", "implements"]
    if !(← check .ident) then fail "Expected decorator name after '@'"
    else if !(known.any (·.toList == word)) then
      fail ("Unknown decorator (recognized: @allow_pure_proc, @allow(<slug>), @drop(<type>), " ++
        "@intrinsic, @gpu, @implements(<device>.<req>, …), @policy(<category>))")
    else
      optTok .ident
      if word == "default".toList then
        parseDefaultDecorator
        return some .defaultDecl
      else if word == "drop".toList then
        decoratorArg .ident "Expected '(' after @drop — name the opaque type, e.g. @drop(socket)"
          "Expected an opaque type name inside @drop(...)" "Expected ')' to close @drop(...)"
        return none
      else if word == "syscall".toList then
        decoratorArg .number
          "Expected '(' after @syscall — give the syscall number, e.g. @syscall(0)"
          "Expected a syscall number inside @syscall(...)" "Expected ')' to close @syscall(...)"
        return none
      else if word == "allow".toList then
        decoratorArg .ident "Expected '(' after @allow"
          "Expected diagnostic slug inside @allow(...)" "Expected ')' to close @allow(...)"
        return none
      else if word == "implements".toList then
        parseImplementsDecorator
        return none
      else return none

/-- The loop over the decorators of a declaration. -/
def parseDecorators : P (Option SyntaxNodeKind) :=
  loopOn none fun _ => do
    if ← matchTok .at then
      let directive ← parseDecorator
      return (directive.isNone, directive)
    else return (false, none)

/-- The `switch` of `parse_decl`. -/
def parseDeclForm (r : Rec) : P SyntaxNodeKind := do
  if ← matchTok .use then parseUseDecl
  else if ← matchIf fun k => k == .hashModule || k == .hashFile then parseRegion r false
  else if ← matchTok .hashForeign then parseRegion r true
  else if ← matchIf fun k => k == .hashLink || k == .hashCflags then parseLinkRegion
  else if ← matchTok .hashRun then parseRunRegion r
  else
    match ← orReport (parseStaticDecl r) "Expected declaration" with
    | some kind => return kind
    | none => fail "Expected declaration"

/-- `parse_decl`. -/
def parseDecl (r : Rec) : P SyntaxNodeKind := do
  match ← parseDecorators with
  | some kind => return kind
  | none => parseDeclForm r

/-! ## The knot -/

/-- The functions of the circle, `n` calls deep. -/
def knot : Nat → Rec
  | 0 => ⟨stuck, stuck, stuck, fun _ _ => stuck, ⟨stuck, fun h => by cases h⟩, stuck⟩
  | n + 1 =>
    { expr := parseExpression (knot n)
      type := parseTypeForm (knot n)
      unary := parseUnaryExpr (knot n)
      binaryRhs := parseBinaryRhs (knot n)
      stmt := parseStatement (knot n)
      decl := parseDecl (knot n) }

/-! ## Programs -/

def maxDeclLoop : Nat := 10000

/-- The loop of `parse_program` with `count` declarations behind it. A `limit` of `none`
reads on for as many declarations as there are. The result says how many were read. -/
def programRun (decl : P SyntaxNodeKind) (m : Mode) (limit : Option Nat) :
    Nat → Nat → Parser → Option (Nat × Parser)
  | 0, _, _ => none
  | n + 1, count, s =>
    if s.current.kind = .eof then some (count, s)
    else if limit.any (count + 1 > ·) then some (count, { s with hadError := true })
    else
      match (declNode decl).run m s with
      | some (some (), t) =>
        if t.unread < s.unread then programRun decl m limit n (count + 1) t else none
      | _ => none

/-- `ParseResult`: the errors and the children of `syntax_root`. -/
structure ParseResult where
  errors : List ParseError
  children : List Elem
  hadError : Bool

/-- `parse_source` with a call depth, a reading and a limit on declarations. The result
comes with the number of declarations read and the mark of the grammar's reading. -/
def parseWith (depth : Nat) (m : Mode) (limit : Option Nat) (src : List Char) :
    Option (Nat × Parser) :=
  programRun (knot depth).decl m limit ((Parser.create src).unread + 1) 0 (Parser.create src)

/-- A call depth that suffices for every text: each call in the circle comes after a
consumed token. -/
def sufficientDepth (src : List Char) : Nat := src.length + 1

/-- `parse_source`. -/
def parseSource (src : List Char) : Option ParseResult :=
  (parseWith (sufficientDepth src) .code (some maxDeclLoop) src).map fun r =>
    ⟨r.2.errors, r.2.items, r.2.hadError⟩

end Arche.Syntax
