import Arche.Codegen.IntLiterals
import Arche.Semantic.SemTypes
import Mathlib.Data.List.DropRight

/-!
# The type checker

`tycheck_run` walks the bodies of all declarations. `synth` gives an expression its type from below,
`check` compares it with the type that is expected. What the analysis before it has recorded is
given: the resolved names, the types of names, fields and indexing, the types of annotations.

* A type is its structure; `tyid_equal` is equality. A nominal type carries its backing.
* Names are compared as text, and many of them through `tyid_display` into a buffer of 16 to 128
  bytes. `display n` is what such a buffer of `n` bytes holds.
* `absent` children, of nodes that a parse error left incomplete, have the type `unknown`.
-/

namespace Arche.Semantic.TypeCheck

open SemTypes (PrimKind CallableKind TyKind)

abbrev Text := List Char

/-! ## Names -/

def isNameChar (c : Char) : Bool := c.isAlphanum || c == '_'

/-- An identifier. -/
structure Ident where
  text : Text
  isName : text ≠ [] ∧ text.all isNameChar = true
deriving DecidableEq

/-- A name with its module: `stem` is empty or ends with a dot. -/
structure QName where
  stem : Text
  base : Ident
  isStem : stem.all (fun c => isNameChar c || c == '.') = true ∧
    (stem = [] ∨ stem.getLast? = some '.')
deriving DecidableEq

def QName.text (n : QName) : Text := n.stem ++ n.base.text

/-- An unqualified name. -/
def QName.of (i : Ident) : QName := ⟨[], i, by decide⟩

def QName.word (s : Text) (h : s ≠ [] ∧ s.all isNameChar = true := by decide) : QName := .of ⟨s, h⟩

theorem isName_int : "int".toList ≠ [] ∧ "int".toList.all isNameChar = true := by decide

theorem isName_float : "float".toList ≠ [] ∧ "float".toList.all isNameChar = true := by decide

theorem isName_char : "char".toList ≠ [] ∧ "char".toList.all isNameChar = true := by decide

theorem isName_str : "str".toList ≠ [] ∧ "str".toList.all isNameChar = true := by decide

theorem isName_void : "void".toList ≠ [] ∧ "void".toList.all isNameChar = true := by decide

theorem isName_i32 : "i32".toList ≠ [] ∧ "i32".toList.all isNameChar = true := by decide

theorem isName_meters : "meters".toList ≠ [] ∧ "meters".toList.all isNameChar = true := by decide

/-- `is_width_int_name`. -/
def isWidthIntName (s : Text) : Bool :=
  s == "byte".toList ||
    match s with
    | c :: n => (c == 'i' || c == 'u') &&
      (n == "8".toList || n == "16".toList || n == "32".toList || n == "64".toList ||
        n == "128".toList)
    | [] => false

/-! ## Types -/

mutual

inductive Ty
  | unknown
  | prim (p : PrimKind)
  | nominal (name : QName) (backing : Ty)
  | slice (elem : Ty)
  | array (elem : Ty) (len : Int)
  | tuple (fields : Fields)
  | sum (name : QName)
  | handle (archetypeName : Option QName)
  | eff (externName : Option QName) (outSlots : Fields)
  | archetypeCategory
  | callable (kind : CallableKind) (params returns : Fields)

/-- Types with their names, where they have one. -/
inductive Fields
  | nil
  | cons (name : Option Ident) (type : Ty) (rest : Fields)

end

deriving instance DecidableEq for Ty, Fields

namespace Fields

def ofList : List (Option Ident × Ty) → Fields
  | [] => nil
  | f :: fs => cons f.1 f.2 (ofList fs)

def ofTypes (ts : List Ty) : Fields := ofList (ts.map fun t => (none, t))

def types : Fields → List Ty
  | nil => []
  | cons _ t rest => t :: rest.types

end Fields

/-- `tyid_kind`. -/
def tyidKind : Ty → TyKind
  | .unknown => .unknown
  | .prim _ => .prim
  | .nominal _ _ => .nominal
  | .slice _ => .slice
  | .array _ _ => .array
  | .tuple _ => .tuple
  | .sum _ => .sum
  | .handle _ => .handle
  | .eff _ _ => .eff
  | .archetypeCategory => .archetypeCategory
  | .callable k _ _ => k.kind

/-- The loop of `tyid_usable_as` over the backing chain. -/
def backedBy (u : Ty) : Ty → Bool
  | .unknown => false
  | .nominal n b => decide (Ty.nominal n b = u) || backedBy u b
  | t => decide (t = u)

/-- Its rule for two effect types. A structural target accepts any extern. -/
def effUsableAs : Ty → Ty → Bool
  | .eff te tos, .eff ue uos => decide (tos.types = uos.types) && (ue == none || ue == te)
  | _, _ => false

/-- `tyid_usable_as`, of `t` where `u` is expected. -/
def tyidUsableAs (t u : Ty) : Bool := effUsableAs t u || backedBy u t

/-! ## Display -/

def primName : PrimKind → Text
  | .void => "void".toList
  | .bool => "bool".toList
  | .int => "i32".toList
  | .float => "float".toList
  | .char => "char".toList
  | .str => "str".toList
  | .count => "?".toList

/-- `%d`. -/
def decimal (x : Int) : Text :=
  if x < 0 then '-' :: Nat.toDigits 10 x.natAbs else Nat.toDigits 10 x.natAbs

/-- `snprintf` of `s` into a buffer of `n` bytes. -/
def fit (n : Nat) (s : Text) : Text := s.take (n - 1)

/-- The spelling of a callable type, of its parameters and its results. -/
def callableText (k : CallableKind) (ps rs first : Text) : Text :=
  match k with
  | .func => ['f', 'u', 'n', 'c', '('] ++ ps ++ [')', ' ', '-', '>', ' '] ++ first
  | .proc => ['p', 'r', 'o', 'c', '('] ++ ps ++ [')', '('] ++ rs ++ [')']
  | .map => ['m', 'a', 'p', '('] ++ ps ++ [')']
  | .policy => ['p', 'o', 'l', 'i', 'c', 'y', '('] ++ ps ++ [')']

mutual

/-- What `tyid_display` prints. The types in a type go through buffers of their own. -/
def Ty.text : Ty → Text
  | .unknown => ['<', 'u', 'n', 'k', 'n', 'o', 'w', 'n', '>']
  | .prim p => primName p
  | .nominal n _ => n.text
  | .slice e => ['[', ']'] ++ fit 128 e.text
  | .array e len => '[' :: decimal len ++ ']' :: fit 128 e.text
  | .tuple fs => '(' :: fs.text true ++ [')']
  | .sum n => n.text
  | .handle a => ['h', 'a', 'n', 'd', 'l', 'e', '('] ++ ((a.map QName.text).getD ['?']) ++ [')']
  | .eff _ slots => ['E', 'f', 'f', '('] ++ fit 300 (slots.text true) ++ [')']
  | .archetypeCategory => ['a', 'r', 'c', 'h', 'e', 't', 'y', 'p', 'e']
  | .callable k ps rs => callableText k (fit 400 (ps.text true)) (fit 400 (rs.text true)) rs.first

/-- The types one after the other. -/
def Fields.text : Bool → Fields → Text
  | _, .nil => []
  | isFirst, .cons _ t rest =>
    (if isFirst then [] else [',', ' ']) ++ fit 128 t.text ++ rest.text false

def Fields.first : Fields → Text
  | .nil => ['v', 'o', 'i', 'd']
  | .cons _ t _ => fit 128 t.text

end

/-- `tyid_display` into a buffer of `n` bytes. -/
def display (n : Nat) (t : Ty) : Text := fit n t.text

/-! ## Syntax -/

/-- `Operator`, in its order. -/
inductive Operator
  | none | add | sub | mul | div | mod | eq | neq | lt | gt | lte | gte | and | or | fmap
deriving DecidableEq

/-- The node kinds from `SN_LITERAL_EXPR` to `SN_PAREN_EXPR`. -/
inductive ExprKind
  | literal | name | field | index | slice | binary | unary | call | alloc | arrayLit | string
  | entity | tupleLit | paren
deriving DecidableEq

structure ExprInfo where
  node : Nat
  /-- The first token. -/
  lexeme : Option Text
  /-- The `ref_name` channel. -/
  refName : Option QName
  /-- The leading token of a name. -/
  leading : Option QName
  /-- `semantic_call_callee_name`. -/
  callee : Option QName
  /-- `sem_model_expr_type_id`. -/
  typeId : Ty
  op : Operator

inductive Expr
  | mk (kind : ExprKind) (info : ExprInfo) (children : List Expr)

def Expr.kind : Expr → ExprKind
  | mk kind _ _ => kind

def Expr.info : Expr → ExprInfo
  | mk _ info _ => info

def Expr.node (e : Expr) : Nat := e.info.node

/-- The node kinds from `SN_BIND_STMT` to `SN_MATCH_STMT`. -/
inductive StmtKind
  | bind | assign | forLoop | ifThen | elseClause | breakLoop | continueLoop | run | expr | ret
  | multiBind | procCall | eachField | block | matchOn
deriving DecidableEq

inductive Stmt
  | mk (kind : StmtKind) (node : Nat) ( annotation : Option Ty) (exprs : List Expr)
    (stmts : List Stmt)

/-! ## Declarations -/

inductive DeclKind
  | func | proc | system | each | map | static | other
deriving DecidableEq

structure Param where
  name : Option Ident
  type : Ty

/-- `static_init` is the initializer of a static array. -/
structure Decl where
  kind : DeclKind
  node : Nat
  name : Option QName
  isPolicy : Bool
  isStdlib : Bool
  isExtern : Bool
  isVariadic : Bool
  params : List Param
  outParams : List Param
  returnTypes : List Ty
  body : List Stmt
  staticInit : Option Expr

structure Alias where
  name : Ident
  backing : QName
  transparent : Bool

/-- What the checker reads of a `SemanticContext`. -/
structure Ctx where
  aliases : List Alias
  enums : List Ident
  callableAliases : List (Ident × Ty)
  sums : List Ident
  decls : List Decl

section Tables

variable (cx : Ctx)

/-- `alias_name_matches`. -/
def aliasNameMatches (registered : Ident) (ref : Text) : Bool :=
  registered.text == ref ||
    ('.' ∈ ref && registered.text == ref.rtakeWhile (· ≠ '.'))

def findAlias (s : Text) : Option Alias := cx.aliases.find? fun a => aliasNameMatches a.name s

def isTypeAlias (s : Text) : Bool := (findAlias cx s).isSome

def aliasIsTransparent (s : Text) : Bool := (findAlias cx s).any (·.transparent)

def aliasBackingStep (s : Text) : Option QName := (findAlias cx s).map (·.backing)

/-- The loop of `resolve_type_alias` where it makes a step. -/
def resolveFrom : Nat → Text → Option QName
  | 0, _ => none
  | guard + 1, s =>
    (findAlias cx s).map fun a => (resolveFrom guard a.backing.text).getD a.backing

/-- `resolve_type_alias` of a registered alias. -/
def resolveTypeAlias (s : Text) : Option QName := resolveFrom cx (cx.aliases.length + 1) s

def isEnumType (s : Text) : Bool := cx.enums.any fun e => e.text == s

/-- `find_callable_sig`. -/
def findCallee (n : QName) : Option Decl :=
  cx.decls.find? fun d =>
    (d.kind == .proc || d.kind == .func) && !d.isPolicy && d.name.any (·.text == n.text)

/-- The built-in spellings of `sem_tyid_of_name`. -/
def canonicalName (n : QName) : QName :=
  if n.text = "Int".toList then .word "i32".toList
  else if n.text = "Float".toList then .word "float".toList
  else if n.text = "Char".toList then .word "char".toList
  else if n.text = "Str".toList then .word "str".toList
  else if n.text = "Void".toList then .word "void".toList
  else if n.text = "int".toList then .word "i32".toList
  else n

/-- `sem_tyid_of_name`. It does not return on a cycle of aliases, here it gives up then. -/
def tyidOfName : Nat → QName → Ty
  | 0, _ => .unknown
  | fuel + 1, n =>
    match cx.callableAliases.find? fun a => a.1.text == n.text with
    | some a => a.2
    | none =>
      let n := canonicalName n
      let r := (resolveTypeAlias cx n.text).getD n
      if isTypeAlias cx n.text && !aliasIsTransparent cx n.text then
        .nominal n (if r.text = n.text then .unknown else tyidOfName fuel r)
      else if r.text = "float".toList then .prim .float
      else if r.text = "char".toList then .prim .char
      else if r.text = "str".toList then .prim .str
      else if r.text = "bool".toList then .prim .bool
      else if r.text = "void".toList then .prim .void
      else if r.text = "opaque".toList then .nominal r .unknown
      else if cx.sums.any fun s => s.text == r.text then .sum r
      else .nominal r .unknown

end Tables

/-! ## Diagnostics -/

inductive DiagKind
  | typeMismatch (place want got : Text)
  | wrongArity (name : Option QName) (expected got : Nat)
  | wrongReturnArity (name : Option QName) (expected got : Nat)
  | opaqueOverwrite (type : Text)
  | breakOutsideLoop
  | continueOutsideLoop
  | duplicateDecl (kind : DeclKind) (name : Option QName)

structure Diag where
  node : Nat
  kind : DiagKind

/-- `SemDiagKind`. -/
inductive DiagCode
  | typeMismatch | wrongArity | opaqueOverwrite | breakOutsideLoop | continueOutsideLoop
  | duplicateDecl
deriving DecidableEq

def DiagKind.code : DiagKind → DiagCode
  | typeMismatch _ _ _ => .typeMismatch
  | wrongArity _ _ _ | wrongReturnArity _ _ _ => .wrongArity
  | opaqueOverwrite _ => .opaqueOverwrite
  | breakOutsideLoop => .breakOutsideLoop
  | continueOutsideLoop => .continueOutsideLoop
  | duplicateDecl _ _ => .duplicateDecl

/-- The error and its node, without the text. -/
def Diag.place (d : Diag) : Nat × DiagCode := (d.node, d.kind.code)

/-- `sem_emit_type_mismatch` with buffers of `n` bytes. -/
def mismatch (n node : Nat) (place : Text) (expected got : Ty) : Diag :=
  ⟨node, .typeMismatch place (display n expected) (display n got)⟩

/-! ## The rules -/

section Rules

variable (cx : Ctx)

def isIntish (s : Text) : Bool := s == "int".toList || s == "char".toList || isWidthIntName s

/-- `literal_lexeme`. -/
def literalLexeme : Expr → Option Text
  | .mk .literal info _ => info.lexeme
  | _ => none

/-- `check_literal_fits`. -/
def checkLiteralFits (e : Expr) (expected : Ty) : Bool :=
  match literalLexeme e with
  | none => false
  | some lex =>
    let isFloatLit := Codegen.IntLiterals.litIsFloat lex
    let isIntLit := lex.head? != some '"' && lex.head? != some '\'' && !isFloatLit
    let isCharLit := lex.head? == some '\''
    match tyidKind expected with
    | .prim =>
      let want := display 16 expected
      (isIntLit && (want == "int".toList || want == "float".toList || want == "char".toList)) ||
        (isCharLit && (want == "char".toList || want == "int".toList)) ||
        (isFloatLit && want == "float".toList)
    | .nominal =>
      let want := display 32 expected
      (isWidthIntName want && (isIntLit || isCharLit)) ||
        (isTypeAlias cx want && !isEnumType cx want &&
          let b := ((resolveTypeAlias cx want).map QName.text).getD want
          (isIntLit && (b == "int".toList || b == "float".toList || b == "char".toList ||
              isWidthIntName b)) ||
            (isCharLit && (b == "char".toList || b == "int".toList || isWidthIntName b)) ||
            (isFloatLit && b == "float".toList))
    | _ => false

def primSilentlyCompatible (a b : Ty) : Bool := isIntish (display 32 a) && isIntish (display 32 b)

def primBinopCompatible (a b : Ty) : Bool :=
  (display 32 a == "str".toList) == (display 32 b == "str".toList)

/-- The name is that of a distinct subtype. -/
def isDistinct (s : Text) : Bool := isTypeAlias cx s && !aliasIsTransparent cx s

/-- The loop over the backing chain. -/
def chainReaches (ename : Text) : Nat → Option QName → Bool
  | 0, _ => false
  | _, none => false
  | guard + 1, some step =>
    step.text == ename || chainReaches ename guard (aliasBackingStep cx step.text)

/-- `subtype_check`; `none` is `-1`. -/
def subtypeCheck (got expected : Ty) : Option Bool :=
  let gname := display 64 got
  let ename := display 64 expected
  let eSub := isDistinct cx ename
  let gSub := isDistinct cx gname
  if gSub && chainReaches cx ename 65 (aliasBackingStep cx gname) then some true
  else if eSub then some false
  else if gSub then
    let gb := ((resolveTypeAlias cx gname).map QName.text).getD gname
    if gb == "opaque".toList then some (ename == "opaque".toList)
    else if gb == ename then some true
    else if isIntish gb && isIntish ename then some true
    else none
  else none

def elementMatches (got expected : Ty) : Bool :=
  decide (got = expected) || subtypeCheck cx got expected == some true ||
    (subtypeCheck cx got expected != some false && primSilentlyCompatible got expected)

def targetIsOpaqueNominal (t : Ty) : Bool :=
  tyidKind t == .nominal &&
    (let name := display 64 t
    name == "opaque".toList ||
      (isDistinct cx name &&
        ((resolveTypeAlias cx name).map QName.text).getD name == "opaque".toList))

/-- The structural callable type of a declaration. -/
def tyidOfCallee (d : Decl) : Ty :=
  let ps := Fields.ofTypes ((d.params.map (·.type)).take 32)
  if d.kind = .proc then .callable .proc ps (.ofTypes ((d.outParams.map (·.type)).take 8))
  else .callable .func ps (.ofTypes (d.returnTypes.take 8))

/-- What `check` does after `synth` has given `got`: the errors of `synth` and its own. -/
def checkGot (e : Expr) (expected : Ty) (place : Text) (diags : List Diag) (got : Ty) :
    List Diag :=
  if got = .unknown then diags
  else if got = expected then diags
  else if tyidKind expected == .eff && tyidUsableAs got expected then diags
  else
    let sub := subtypeCheck cx got expected
    if sub == some true then diags
    else if sub != some false && primSilentlyCompatible got expected then diags
    else if (tyidKind got == .slice || tyidKind got == .array) &&
        (let en := display 32 expected
        en == "int".toList || en == "char".toList || en == "i64".toList ||
          en == "opaque".toList || isWidthIntName en) then diags
    else diags ++ [mismatch 128 e.node place expected got]

/-- The expected types that `check` lets pass. -/
def failsOpen (expected : Ty) : Bool :=
  match tyidKind expected with
  | .unknown | .slice | .array | .handle | .tuple | .archetypeCategory => true
  | _ => false

/-- An expression and what `synth` gives for it. -/
structure Seen where
  expr : Expr
  diags : List Diag
  type : Ty

/-- `check` of an expression that is there. -/
def checkSeen (s : Seen) (expected : Ty) (place : Text) : List Diag :=
  if failsOpen expected || checkLiteralFits cx s.expr expected then []
  else checkGot cx s.expr expected place s.diags s.type

/-- `snprintf(where, 64, "argument %d of '%s'", i + 1, name)`. -/
def argumentPlace (i : Nat) (name : QName) : Text :=
  fit 64 ("argument ".toList ++ decimal (i + 1) ++ " of '".toList ++ name.text ++ ['\''])

/-- The arguments from number `i` on against the parameters that are left. -/
def checkArgs (name : QName) : Nat → List Seen → List Param → List Diag
  | i, s :: ss, p :: ps =>
    checkSeen cx s p.type (argumentPlace i name) ++ checkArgs name (i + 1) ss ps
  | _, _, _ => []

/-- `synth_call`. -/
def synthCall (info : ExprInfo) (args : List Seen) : List Diag × Ty :=
  match info.callee with
  | none => ([], .unknown)
  | some name =>
    match findCallee cx name with
    | none =>
      let isPrim := isIntish name.text || name.text == "float".toList ||
        name.text == "str".toList || name.text == "void".toList
      ([], if isPrim || isTypeAlias cx name.text then tyidOfName cx (cx.aliases.length + 1) name
        else .unknown)
    | some cr =>
      let returns := if cr.kind = .func then cr.returnTypes else []
      let arity : Diag := ⟨info.node, .wrongArity (some name) cr.params.length args.length⟩
      let wrong : Bool := if cr.isVariadic then args.length < cr.params.length
        else cr.params.length ≠ args.length
      if wrong then ([arity], returns.head?.getD .unknown)
      else
        let diags := checkArgs cx name 0 args cr.params
        if cr.isExtern ∧ cr.kind = .proc then
          (diags, .eff (some name) (.ofList (cr.outParams.map fun p => (p.name, p.type))))
        else (diags, returns.head?.getD (.prim .void))

/-- `synth` of an operator that is not `|>`. -/
def synthBinary (op : Operator) (l r : Option Seen) : List Diag × Ty :=
  let lt := (l.map (·.type)).getD .unknown
  let rt := (r.map (·.type)).getD .unknown
  let isAggr := fun t => tyidKind t == .slice || tyidKind t == .array
  let bad := lt ≠ .unknown ∧ rt ≠ .unknown ∧
    (isAggr lt || isAggr rt || (!decide (lt = rt) && !primBinopCompatible lt rt)) = true
  let node := (r.map (·.expr.node)).getD 0
  let diags := (l.map (·.diags)).getD [] ++ (r.map (·.diags)).getD [] ++
    if bad then [mismatch 64 node "binary operand".toList lt rt] else []
  (diags,
    if op ∈ [.eq, .neq, .lt, .gt, .lte, .gte, .and, .or] then .prim .int
    else if tyidKind lt == .nominal && isDistinct cx (display 64 lt) then lt
    else if tyidKind rt == .nominal && isDistinct cx (display 64 rt) then rt
    else if lt = .prim .float ∨ rt = .prim .float then .prim .float
    else lt)

/-- `synth` of `eff |> fin`. -/
def synthFmap (l r : Option Seen) : List Diag × Ty :=
  let lt := (l.map (·.type)).getD .unknown
  ((l.map (·.diags)).getD [],
    if tyidKind lt != .eff then lt
    else
      match (r.bind (·.expr.info.refName)).bind (findCallee cx) with
      | some fd =>
        if fd.returnTypes = [] then lt else .eff none (.ofTypes (fd.returnTypes.take 8))
      | none => lt)

/-- The cases of `synth`, from what it gives for the children. -/
def synthNode (kind : ExprKind) (info : ExprInfo) (children : List Seen) : List Diag × Ty :=
  match kind with
  | .paren | .unary =>
    match children.head? with
    | some s => (s.diags, s.type)
    | none => ([], .unknown)
  | .literal =>
    match info.lexeme with
    | none => ([], .unknown)
    | some lex =>
      ([], if lex.head? = some '"' then .prim .str
        else if lex.head? = some '\'' then .prim .char
        else if Codegen.IntLiterals.litIsFloat lex then .prim .float
        else .prim .int)
  | .string => ([], .prim .str)
  | .call => synthCall cx info children
  | .binary =>
    if info.op = .fmap then synthFmap cx children[0]? children[1]?
    else synthBinary cx info.op children[0]? children[1]?
  | .index | .slice | .field => ([], info.typeId)
  | .name =>
    match (info.refName.orElse fun _ => info.leading).bind (findCallee cx) with
    | some cr => ([], tyidOfCallee cr)
    | none => ([], info.typeId)
  | .arrayLit =>
    match children.head? with
    | none => ([], .unknown)
    | some s =>
      (s.diags, if s.type = .unknown then .unknown else .array s.type children.length)
  | .alloc | .entity | .tupleLit => ([], .unknown)

mutual

def synth : Expr → List Diag × Ty
  | .mk kind info children => synthNode cx kind info (synthAll children)

def synthAll : List Expr → List Seen
  | [] => []
  | e :: es => ⟨e, (synth e).1, (synth e).2⟩ :: synthAll es

end

def see (e : Expr) : Seen := ⟨e, (synth cx e).1, (synth cx e).2⟩

def check (e : Expr) (expected : Ty) (place : Text) : List Diag :=
  checkSeen cx (see cx e) expected place

/-! ## The walk -/

/-- The elements of an array literal, with what the walk gives for each, against the first type. -/
def homogeneous : Option Ty → List (Expr × List Diag) → List Diag
  | _, [] => []
  | elem, (el, visited) :: rest =>
    let et := (synth cx el).2
    let diags := visited ++ (synth cx el).1
    if et = .unknown then diags ++ homogeneous elem rest
    else
      match elem with
      | none => diags ++ homogeneous (some et) rest
      | some t =>
        (if elementMatches cx et t then diags
          else diags ++ [mismatch 128 el.node "array element".toList t et]) ++
          homogeneous (some t) rest

mutual

def visitExpr : Expr → List Diag
  | .mk kind info children =>
    (synth cx (.mk kind info children)).1 ++
      match kind with
      | .paren | .unary => ((visitAll children).head?.map (·.2)).getD []
      | .binary => ((visitAll children).take 2).flatMap (·.2)
      | .index | .slice => (visitAll children).flatMap (·.2)
      | .arrayLit => homogeneous cx none (visitAll children)
      | _ => []

def visitAll : List Expr → List (Expr × List Diag)
  | [] => []
  | e :: es => (e, visitExpr e) :: visitAll es

end

/-- The assignment after both sides were walked. -/
def checkAssign (target value : Expr) : List Diag :=
  let tt := (synth cx target).2
  let scatter := target.kind == .field && value.kind == .arrayLit
  (synth cx target).1 ++
    if !scatter && targetIsOpaqueNominal cx tt then
      [⟨target.node, .opaqueOverwrite (display 64 tt)⟩]
    else if scatter then
      match value with
      | .mk _ _ children => children.flatMap fun el => check cx el tt "column element".toList
    else check cx value tt "assignment".toList

/-- The returned values from the first on against the declared types. -/
def checkReturns : List Expr → List Ty → List Diag
  | e :: es, t :: ts => check cx e t "return value".toList ++ checkReturns es ts
  | _, _ => []

mutual

/-- `visit_stmt`; `fn` is the function whose body it is. -/
def visitStmt (fn : Option Decl) (loopDepth : Nat) : Stmt → List Diag
  | .mk kind node annotation exprs stmts =>
    match kind with
    | .bind =>
      match exprs[1]? with
      | none => []
      | some value =>
        visitExpr cx value ++
          match annotation with
          | some t => check cx value t "binding".toList
          | none => []
    | .assign =>
      let target := exprs[0]?
      let value := exprs[1]?
      ((target.map (visitExpr cx)).getD []) ++ ((value.map (visitExpr cx)).getD []) ++
        match target, value with
        | some t, some v => checkAssign cx t v
        | _, _ => []
    | .multiBind | .procCall =>
      match exprs.find? (·.kind == .call) with
      | some v => visitExpr cx v
      | none => []
    | .expr => ((exprs.head?).map (visitExpr cx)).getD []
    | .ret =>
      exprs.flatMap (visitExpr cx) ++
        match fn with
        | none => []
        | some fn =>
          (if fn.returnTypes.length ≠ exprs.length then
            [⟨node, .wrongReturnArity fn.name fn.returnTypes.length exprs.length⟩] else []) ++
            checkReturns cx exprs fn.returnTypes
    | .ifThen => ((exprs.head?).map (visitExpr cx)).getD [] ++ visitStmts fn loopDepth stmts
    | .forLoop => exprs.flatMap (visitExpr cx) ++ visitStmts fn (loopDepth + 1) stmts
    | .breakLoop => if loopDepth = 0 then [⟨node, .breakOutsideLoop⟩] else []
    | .continueLoop => if loopDepth = 0 then [⟨node, .continueOutsideLoop⟩] else []
    | .eachField | .block | .matchOn => visitStmts fn loopDepth stmts
    | .elseClause | .run => []

/-- `visit_child_stmts`. -/
def visitStmts (fn : Option Decl) (loopDepth : Nat) : List Stmt → List Diag
  | [] => []
  | s :: ss => visitStmt fn loopDepth s ++ visitStmts fn loopDepth ss

end

/-- The search for an earlier declaration of the name. -/
def duplicates (before : List Decl) (d : Decl) : List Diag :=
  if (d.kind = .func ∨ d.kind = .proc) ∧ d.name.isSome ∧ !d.isPolicy ∧
      before.any fun e =>
        (e.kind == .func || e.kind == .proc) && !e.isPolicy && e.name.isSome &&
          !d.isStdlib && !e.isStdlib && e.name.map QName.text == d.name.map QName.text
  then [⟨d.node, .duplicateDecl d.kind d.name⟩] else []

def checkDecl (d : Decl) : List Diag :=
  let fn := if d.kind = .func then some d else none
  (if d.kind ∈ [.func, .proc, .system, .each, .map] then
    visitStmts cx fn (if d.kind = .each then 1 else 0) d.body else []) ++
  (if d.kind = .static then
    match d.staticInit with
    | some e => if e.kind = .arrayLit then visitExpr cx e else []
    | none => []
  else [])

def runDecls : List Decl → List Decl → List Diag
  | _, [] => []
  | before, d :: ds => duplicates before d ++ checkDecl cx d ++ runDecls (before ++ [d]) ds

def tycheckRun : List Diag := runDecls cx [] cx.decls

end Rules

end Arche.Semantic.TypeCheck
