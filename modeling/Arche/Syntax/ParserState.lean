import Arche.Syntax.Lexer

/-!
# The parser's state

The parser builds only the lossless syntax tree: `advance` appends the token it
consumes as a leaf, `syntax_wrap` replaces everything appended since a
checkpoint by one node. Node ids, the offsets and lengths of nodes (those of
their leaves) and the pending trivia, which no control flow reads, are left
out.
-/

namespace Arche.Syntax


/-- The node kinds of `syntax_tree.h` that the parser creates. -/
inductive SyntaxNodeKind where
  | sourceFile | staticDecl | constDecl | defaultDecl | useDecl | region | runDecl
  | param | outParam | outArg | writeParam
  | bindStmt | assignStmt | forStmt | ifStmt | breakStmt | continueStmt | exprStmt | returnStmt
  | multiBindStmt | procCallStmt | eachFieldStmt | block | matchStmt | matchArm
  | literalExpr | nameExpr | fieldExpr | indexExpr | sliceExpr | binaryExpr | unaryExpr
  | callExpr | arrayLitExpr | stringExpr | entityExpr | tupleLit | parenExpr
  | procExpr | funcExpr | policyExpr | groupExpr | archExpr | mapExpr | systemExpr | eachExpr
  | queryExpr | enumExpr | enumVariant | sumExpr | sumVariant
  | typeRef | typeArray | typeShapedArray | typeHandle | typeEff | typeProc | typeFunc
  | fieldName | paramName | calleeName | queryRef | queryBind | eff | policyRef
  | error
  deriving DecidableEq, Repr

/-- `SyntaxElem`: a token leaf or a node. -/
inductive Elem where
  | token (kind : TokenKind) (offset length line column : Nat)
  | node (kind : SyntaxNodeKind) (children : List Elem)

/-- What a leaf says about its token. -/
structure Leaf where
  kind : TokenKind
  offset : Nat
  length : Nat
  deriving DecidableEq, Repr

mutual

/-- The token leaves below an element, in order. -/
def Elem.leaves : Elem → List Leaf
  | .token kind offset length _ _ => [⟨kind, offset, length⟩]
  | .node _ children => leavesOf children

def leavesOf : List Elem → List Leaf
  | [] => []
  | e :: es => e.leaves ++ leavesOf es

end

/-- `ParseError`. -/
structure ParseError where
  message : String
  line : Nat
  column : Nat
  deriving DecidableEq, Repr

/-- `struct Parser`. `loneEmpty` belongs to the grammar's reading of a text only: it
records an empty statement that the code's reading would stumble over. -/
structure Parser where
  lexer : Lexer
  current : Token
  previous : Token
  hadError : Bool
  panicMode : Bool
  errors : List ParseError
  recursionDepth : Int
  noBraceLit : Bool
  inForeign : Bool
  items : List Elem
  loneEmpty : Bool
  /-- Panic mode starts with a recorded error. -/
  panic_recorded : panicMode = true → errors ≠ []

namespace Parser

/-- Bytes still to be read: those the lexer has not seen, and one for a token in hand. -/
def unread (s : Parser) : Nat :=
  s.lexer.rest.length + if s.current.kind = .eof then 0 else 1

/-- `syntax_builder_token`; offset and length are `uint32_t`. -/
def emit (s : Parser) (t : Token) : Parser :=
  { s with items := s.items ++
      [.token t.kind (t.start % 4294967296) (t.length % 4294967296) t.line t.column] }

/-- `parser->current = lexer_next_token(parser->lexer)`. -/
def next (s : Parser) : Parser :=
  { s with current := (lexerNextToken s.lexer).1, lexer := (lexerNextToken s.lexer).2 }

/-- A loop cap: `had_error = 1; current.kind = TOK_EOF`. -/
def cut (s : Parser) : Parser :=
  { s with hadError := true, current := { s.current with kind := .eof } }

@[irreducible]
def maxCommentLoop : Nat := 1000

@[irreducible]
def maxSyncLoop : Nat := 1000

/-- The comment loop of `advance`, with `n` rounds left. -/
def skipComments : Nat → Parser → Parser
  | 0, s => if s.current.kind = .comment then s.cut else s
  | n + 1, s => if s.current.kind = .comment then skipComments n (s.emit s.current).next else s

/-- `if (parser->current.kind == TOK_ERROR) parser->had_error = 1;`. -/
def flagError (s : Parser) : Parser :=
  if s.current.kind = .error then { s with hadError := true } else s

/-- The first half of `advance`: the token in hand becomes a leaf, unless it is the end
sentinel or an error token, and the previous token. -/
def take (s : Parser) : Parser :=
  if s.current.kind ≠ .eof ∧ s.current.kind ≠ .error then
    { s.emit s.current with previous := s.current }
  else { s with previous := s.current }

/-- `advance`. -/
def advance (s : Parser) : Parser := (s.take.next.skipComments maxCommentLoop).flagError

/-- `error`. -/
def report (s : Parser) (message : String) : Parser :=
  if s.panicMode then s
  else
    { s with
      panicMode := true
      hadError := true
      errors := s.errors ++ [⟨message, s.current.line, s.current.column⟩]
      panic_recorded := by simp }

/-- The keywords `synchronize` stops in front of. -/
def syncKeyword : TokenKind → Bool
  | .archetype | .proc | .map | .system | .func | .let_ | .for_ => true
  | _ => false

/-- The loop of `synchronize`, with `n` rounds left. -/
def syncLoop : Nat → Parser → Parser
  | 0, s => if s.current.kind = .eof then s else s.cut
  | n + 1, s =>
    if s.current.kind = .eof then s
    else if s.previous.kind = .semi then s
    else if syncKeyword s.current.kind then s
    else syncLoop n s.advance

/-- `parser->panic_mode = 0`. -/
def calm (s : Parser) : Parser := { s with panicMode := false, panic_recorded := by simp }

/-- `synchronize`. -/
def synchronize (s : Parser) : Parser :=
  syncLoop maxSyncLoop (if s.current.kind = .eof then s.calm else s.calm.advance)

/-- `syntax_wrap`: nothing to wrap leaves the list alone. -/
def wrap (s : Parser) (checkpoint : Nat) (kind : SyntaxNodeKind) : Parser :=
  if s.items.length ≤ checkpoint then s
  else { s with items := s.items.take checkpoint ++ [.node kind (s.items.drop checkpoint)] }

/-- `syntax_single_node_kind`: the kind of the only node since the checkpoint. -/
def singleNodeKind (s : Parser) (checkpoint : Nat) : SyntaxNodeKind :=
  match s.items.drop checkpoint with
  | [.node kind _] => kind
  | _ => .error

/-- `syntax_single_node`. -/
def singleNode (s : Parser) (checkpoint : Nat) : Bool :=
  match s.items.drop checkpoint with
  | [.node _ _] => true
  | _ => false

/-- `cur_ident_is`. -/
def curIdentIs (s : Parser) (kw : String) : Bool :=
  s.current.kind == .ident && s.current.text == kw.toList

/-- `parser_init` before its `advance`: the zeroed token has kind `TOK_EOF`. -/
def init (src : List Char) : Parser where
  lexer := Lexer.init src
  current := ⟨.eof, 0, [], 0, 0⟩
  previous := ⟨.eof, 0, [], 0, 0⟩
  hadError := false
  panicMode := false
  errors := []
  recursionDepth := 0
  noBraceLit := false
  inForeign := false
  items := []
  loneEmpty := false
  panic_recorded := by simp

/-- `parser_create`. -/
def create (src : List Char) : Parser := (init src).advance

end Parser

end Arche.Syntax
