import Arche.Codegen.EmitSched
import Arche.Codegen.IntLiterals
import Arche.Lib.Spans

/-!
# The direct wasm backend

wasmgen.c turns the system bodies of a program into the body of one wasm function. It
keeps flat tables as it goes: the locals by name, the local arrays by name with their
places in linear memory, and the bytes of the string literals.

* An expression becomes a list of operations, a statement a piece of structured code.
* Expressions carry the type lowering gave them.
* Of an index expression the number of indices and the first index are kept, since
  nothing else is read. The expressions for which only `i32.const 0` is emitted are
  `other`, but for unary ones.
* A missing part of a loop is `null`.
* The tables keep a log of what was placed in memory beside the arrays.
-/

namespace Arche.Codegen.WasmGen

open Arche.Lib
open Arche.Codegen.IntLiterals (wgParseInt)

/-! ## The program -/

/-- `HirType`. A missing type and the tags the backend treats alike are `other`. -/
inductive HirType
  | int (width : Nat) (signed : Bool)
  | float
  | char
  | charArray
  | array (elem : HirType)
  | shapedArray (rank : Nat) (elem : HirType)
  | other
deriving DecidableEq, Repr

inductive Operator
  | add | sub | mul | div | mod
  | eq | neq | lt | gt | lte | gte
  | and | or
  | fmap
deriving DecidableEq, Repr

inductive UnaryOperator
  | neg | not | move | copy
deriving DecidableEq, Repr

/-- `HirExpr`. -/
inductive Expr
  | literal (resolved : HirType) (lexeme : List Char)
  | name (resolved : HirType) (name : String)
  | binary (resolved : HirType) (op : Operator) (left right : Expr)
  | unary (resolved : HirType) (op : UnaryOperator) (operand : Expr)
  | index (resolved : HirType) (base : Expr) (count : Nat) (first : Expr)
  | field (resolved : HirType) (base : Expr) (fieldName : String)
  | string (resolved : HirType) (value : List Char)
  | other (resolved : HirType)
deriving DecidableEq, Repr

def Expr.resolved : Expr → HirType
  | .literal t _ | .name t _ | .binary t _ _ _ | .unary t _ _ | .index t _ _ _ | .field t _ _
  | .string t _ | .other t => t

/-- The name a base expression is, if it is one. -/
def Expr.name? : Expr → Option String
  | .name _ x => some x
  | _ => none

/-- The value of a binding. -/
inductive Init
  | none
  | expr (e : Expr)
  | arrayLiteral (resolved : HirType) (elements : List Expr)
deriving DecidableEq, Repr

/-- The expression of an expression statement: a call by its callee, or anything else. -/
inductive CallExpr
  | name (callee : String) (args : List Expr)
  | field (callee : String) (args : List Expr)
  | applied (callee : CallExpr) (args : List Expr)
  | other
deriving DecidableEq, Repr

/-- `HirStmt`. `assign` has no operator for `=`. -/
inductive Stmt
  | null
  | bind (name : String) (type : HirType) (value : Init)
  | assign (target : Expr) (op : Option Operator) (value : Expr)
  | forLoop (init : Stmt) (cond : Option Expr) (incr : Stmt) (body : List Stmt)
  | ifElse (cond : Expr) (thenBody elseBody : List Stmt)
  | expr (e : CallExpr)
  | block (stmts : List Stmt)
  | brk
  | cont
  | ret
  | other
deriving Repr

inductive Kernel
  | map
  | system
deriving DecidableEq, Repr

/-- `HirDecl`: the declarations the backend looks at. -/
inductive Decl
  | const (name : String) (value : Expr)
  | kernel (name : String) (kind : Kernel) (paramCount : Nat) (stmts : List Stmt)
  | run (tree : GpuCoherence.Out)
  | other

abbrev Program := List Decl

/-! ## The code -/

inductive ValType
  | i32
  | f64
deriving DecidableEq, Repr

inductive IBinop
  | add | sub | mul | divS | remS
  | eq | ne | ltS | gtS | leS | geS
  | and | or
deriving DecidableEq, Repr

inductive FBinop
  | add | sub | mul | div
  | eq | ne | lt | gt | le | ge
deriving DecidableEq, Repr

/-- What a load or store moves. -/
inductive Access
  | f64
  | byte (signed : Bool)
  | half (signed : Bool)
  | word
deriving DecidableEq, Repr

/-- The two imports. -/
inductive Import
  | print
  | printf
deriving DecidableEq, Repr

inductive Op
  | i32Const (v : Int)
  | f64Const (lexeme : List Char)
  | localGet (i : Nat)
  | localSet (i : Nat)
  | ibin (op : IBinop)
  | fbin (op : FBinop)
  | convert
  | eqz
  | load (a : Access)
  | store (a : Access)
  | call (f : Import)
deriving DecidableEq, Repr

/-- Structured code. The blocks take and leave nothing. -/
inductive Code
  | ops (l : List Op)
  | seq (a b : Code)
  | block (body : Code)
  | loop (body : Code)
  | ifElse (t e : Code)
  | br (depth : Nat)
  | brIf (depth : Nat)
deriving DecidableEq, Repr

/-! ## The tables -/

structure Local where
  name : String
  wt : ValType
deriving DecidableEq, Repr

structure Array where
  name : String
  base : Nat
  elemSize : Nat
  elemWt : ValType
  elemSigned : Bool
  total : Nat
deriving DecidableEq, Repr

/-- Where the array is. -/
def Array.region (a : Array) : Region := ⟨a.base, a.total * a.elemSize⟩

/-- `Wg`, without the code. `locals` has the names that were recorded, `localCount` counts the
others as well. -/
structure Wg where
  strings : List Char
  arraysCursor : Nat
  locals : List Local
  localCount : Nat
  arrays : List Array
  /-- Log: where string literals were placed. -/
  interned : List Region
  /-- Log: the argument blocks of the `printf` calls. -/
  argBlocks : List Region
deriving DecidableEq, Repr

def maxLocals : Nat := 256
def maxArrays : Nat := 128
def argsBase : Nat := 512
def stringsBase : Nat := 1024
def arraysBase : Nat := 16384
/-- Four pages. -/
def memorySize : Nat := 4 * 65536

def Wg.init : Wg := ⟨[], arraysBase, [], 0, [], [], []⟩

/-- `wg_wtype`. -/
def wtype : HirType → ValType
  | .float => .f64
  | _ => .i32

/-- `wg_is_array`. -/
def isArray : HirType → Bool
  | .shapedArray _ _ | .array _ | .charArray => true
  | _ => false

/-- `wg_base_elem`. -/
def baseElem : HirType → HirType
  | .shapedArray _ t | .array t => baseElem t
  | t => t

/-- `wg_total_elems`. -/
def totalElems : HirType → Nat
  | .shapedArray rank t => (if 0 < rank then rank else 1) * totalElems t
  | .array t => totalElems t
  | _ => 1

/-- `wg_scalar_size`. -/
def scalarSize : HirType → Nat
  | .float => 8
  | .char | .charArray => 1
  | .int width _ => if 8 ≤ width then width / 8 else 4
  | _ => 4

/-- `wg_local`. -/
def wgLocal (g : Wg) (name : String) (wt : ValType) : Nat × Wg :=
  match g.locals.findIdx? (·.name == name) with
  | some i => (i, g)
  | none =>
    (g.localCount, { g with
      locals := if g.localCount < maxLocals then g.locals ++ [⟨name, wt⟩] else g.locals
      localCount := g.localCount + 1 })

/-- `wg_array_find`. -/
def arrayFind (g : Wg) (name : String) : Option Array := g.arrays.find? (·.name == name)

/-- The record `wg_array_decl` makes. -/
def newArray (g : Wg) (name : String) (t : HirType) : Array :=
  let base := baseElem t
  ⟨name, g.arraysCursor, scalarSize base, wtype base,
    match base with | .int _ signed => signed | _ => false, totalElems t⟩

/-- `wg_array_decl`. -/
def arrayDecl (g : Wg) (name : String) (t : HirType) : Option Array × Wg :=
  if maxArrays ≤ g.arrays.length then (none, g)
  else
    let a := newArray g name t
    (some a, { g with arrays := g.arrays ++ [a], arraysCursor := g.arraysCursor + a.total * a.elemSize })

def Array.access (a : Array) : Access :=
  if a.elemWt = .f64 then .f64
  else if a.elemSize = 1 then .byte a.elemSigned
  else if a.elemSize = 2 then .half a.elemSigned
  else .word

/-- The character behind a backslash. -/
def escape (e : Char) : Char :=
  if e = 'n' then '\n' else if e = 't' then '\t' else if e = 'r' then '\r'
  else if e = '0' then Char.ofNat 0 else e

/-- The bytes of a string literal. -/
def unescape : List Char → List Char
  | '\\' :: e :: cs => escape e :: unescape cs
  | c :: cs => c :: unescape cs
  | [] => []

/-- `wg_intern_string`: offset and length. -/
def internString (g : Wg) (raw : List Char) : Nat × Nat × Wg :=
  let bytes := unescape raw
  let off := stringsBase + g.strings.length
  (off, bytes.length,
    { g with strings := g.strings ++ bytes, interned := g.interned ++ [⟨off, bytes.length⟩] })

/-- `wg_parse_char`. -/
def wgParseChar (lexeme : List Char) : Int :=
  match if lexeme.head?.any (·.toNat == 39) then lexeme.drop 1 else lexeme with
  | '\\' :: e :: _ => (escape e).toNat
  | c :: _ => c.toNat
  | [] => 0

/-! ## Expressions -/

/-- `binop_i`. -/
def binopI : Operator → Option IBinop
  | .add => some .add
  | .sub => some .sub
  | .mul => some .mul
  | .div => some .divS
  | .mod => some .remS
  | .eq => some .eq
  | .neq => some .ne
  | .lt => some .ltS
  | .gt => some .gtS
  | .lte => some .leS
  | .gte => some .geS
  | .and => some .and
  | .or => some .or
  | .fmap => none

/-- `binop_f`. -/
def binopF : Operator → Option FBinop
  | .add => some .add
  | .sub => some .sub
  | .mul => some .mul
  | .div => some .div
  | .eq => some .eq
  | .neq => some .ne
  | .lt => some .lt
  | .gt => some .gt
  | .lte => some .le
  | .gte => some .ge
  | .mod | .and | .or | .fmap => none

/-- The value a literal is replaced by. -/
def literalOp (t : HirType) (lexeme : List Char) : Op :=
  if wtype t = .f64 then .f64Const lexeme
  else if t = .char then .i32Const (wgParseChar lexeme)
  else if lexeme = "true".toList then .i32Const 1
  else if lexeme = "false".toList then .i32Const 0
  else .i32Const (wgParseInt lexeme)

abbrev Emit := Wg → Expr → List Op × Wg

/-- The operations behind the operands of a binary expression: the coercion of each, and the
operation. `none` where the operation is not supported. -/
def binopOps (op : Operator) (l r : ValType) : Option (List Op × List Op × Op) :=
  if l = .f64 ∨ r = .f64 then
    (binopF op).map fun o => (if l = .f64 then [] else [.convert],
      if r = .f64 then [] else [.convert], .fbin o)
  else (binopI op).map fun o => ([], [], .ibin o)

/-- `wg_emit_elem_addr`, the index emitted. -/
def elemAddr (a : Array) (index : List Op) : List Op :=
  [.i32Const a.base] ++ index ++
    (if a.elemSize ≠ 1 then [.i32Const a.elemSize, .ibin .mul] else []) ++ [.ibin .add]

/-- `wg_emit_expr`; `inline` emits the value of a constant. -/
def emitExprWith (consts : List (String × Expr)) (inline : Emit) : Emit
  | g, .literal t lexeme => ([literalOp t lexeme], g)
  | g, .name t x =>
    match consts.find? (·.1 == x) with
    | some c => inline g c.2
    | none =>
      let (i, g) := wgLocal g x (wtype t)
      ([.localGet i], g)
  | g, .binary _ op l r =>
    match binopOps op (wtype l.resolved) (wtype r.resolved) with
    | some (cl, cr, o) =>
      let (ls, g) := emitExprWith consts inline g l
      let (rs, g) := emitExprWith consts inline g r
      (ls ++ cl ++ rs ++ cr ++ [o], g)
    | none => ([.i32Const 0], g)
  | g, .index _ base count first =>
    match base.name?.bind (arrayFind g) with
    | some a =>
      if count = 1 then
        let (is, g) := emitExprWith consts inline g first
        (elemAddr a is ++ [.load a.access], g)
      else ([.i32Const 0], g)
    | none => ([.i32Const 0], g)
  | g, .field _ base fieldName =>
    match if fieldName = "length" then base.name?.bind (arrayFind g) else none with
    | some a => ([.i32Const a.total], g)
    | none => ([.i32Const 0], g)
  | g, .unary _ _ _ => ([.i32Const 0], g)
  | g, .string _ _ => ([.i32Const 0], g)
  | g, .other _ => ([.i32Const 0], g)

/-- Constants are inlined in constants to a depth. In a list of constants that do not refer to
each other in a circle no chain is longer than the list. -/
def emitDepth (consts : List (String × Expr)) : Nat → Emit
  | 0 => fun g _ => ([.i32Const 0], g)
  | n + 1 => emitExprWith consts (emitDepth consts n)

def emitExpr (consts : List (String × Expr)) : Emit := emitDepth consts (consts.length + 1)

variable (consts : List (String × Expr))

/-- `wg_emit_as_float`. -/
def emitAsFloat (g : Wg) (e : Expr) : List Op × Wg :=
  let (ops, g) := emitExpr consts g e
  (ops ++ (if wtype e.resolved = .f64 then [] else [.convert]), g)

/-- An expression for a place of the type. -/
def emitAs (wt : ValType) (g : Wg) (e : Expr) : List Op × Wg :=
  if wt = .f64 then emitAsFloat consts g e else emitExpr consts g e

/-! ## Statements -/

/-- `wg_unwrap_eff`. -/
def unwrapEff : CallExpr → CallExpr
  | .applied callee _ => unwrapEff callee
  | e => e

/-- `strstr(nm, "printf")`. -/
def hasPrintf : List Char → Bool
  | [] => false
  | c :: cs => "printf".toList.isPrefixOf (c :: cs) || hasPrintf cs

/-- The arguments of a print call (`is_print_call`), else nothing. -/
def printArgs (e : CallExpr) : Option (List Expr) :=
  match unwrapEff e with
  | .name nm args | .field nm args =>
    if hasPrintf nm.toList ∨ nm = "print" then some args else none
  | _ => none

/-- One argument of `printf` into its slot. -/
def emitSlot (g : Wg) (slot : Nat) (e : Expr) : List Op × Wg :=
  let pair (p l : Nat) : List Op :=
    [.i32Const slot, .i32Const p, .store .word, .i32Const (slot + 4 : Nat), .i32Const l, .store .word]
  match e with
  | .string _ value =>
    let (p, l, g) := internString g value
    (pair p l, g)
  | e =>
    if e.resolved = .charArray then
      match e.name?.bind (arrayFind g) with
      | some a => (pair a.base a.total, g)
      | none => (pair 0 0, g)
    else
      let (ops, g) := emitExpr consts g e
      ([.i32Const slot] ++ ops ++ [.store (if wtype e.resolved = .f64 then .f64 else .word)], g)

def emitSlots (g : Wg) (slot : Nat) : List Expr → List Op × Wg
  | [] => ([], g)
  | e :: es =>
    let (ops, g) := emitSlot consts g slot e
    let (rest, g) := emitSlots g (slot + 8) es
    (ops ++ rest, g)

def logArgs (g : Wg) (n : Nat) : Wg := { g with argBlocks := g.argBlocks ++ [⟨argsBase, 8 * n⟩] }

/-- `wg_emit_printf`. -/
def emitPrintf (g : Wg) : List Expr → List Op × Wg
  | .string _ fmt :: args =>
    let (off, len, g) := internString g fmt
    if args = [] then ([.i32Const off, .i32Const len, .call .print], g)
    else
      let (ops, g) := emitSlots consts (logArgs g args.length) argsBase args
      (ops ++ [.i32Const off, .i32Const len, .i32Const argsBase, .i32Const args.length, .call .printf], g)
  | _ => ([], g)

/-- The elements of an array literal, from the `k`-th on. -/
def emitElements (g : Wg) (a : Array) (k : Nat) : List Expr → List Op × Wg
  | [] => ([], g)
  | e :: es =>
    if k < a.total then
      let (ops, g) := emitAs consts a.elemWt g e
      let (rest, g) := emitElements g a (k + 1) es
      ([.i32Const (a.base + k * a.elemSize : Nat)] ++ ops ++ [.store a.access] ++ rest, g)
    else ([], g)

/-- The type that makes a binding an array. -/
def bindArrayType (type : HirType) (value : Init) : Option HirType :=
  if isArray type then some type
  else match value with
    | .none => none
    | .expr e => if isArray e.resolved then some e.resolved else none
    | .arrayLiteral t _ => if isArray t then some t else none

/-- `HIR_STMT_BIND`. -/
def emitBind (g : Wg) (name : String) (type : HirType) (value : Init) : List Op × Wg :=
  match bindArrayType type value with
  | some t =>
    let (a, g) := arrayDecl g name t
    match a, value with
    | some a, .arrayLiteral _ elements => emitElements consts g a 0 elements
    | _, _ => ([], g)
  | none =>
    let (ops, wt, g) := match value with
      | .none => (([.i32Const 0], .i32, g) : List Op × ValType × Wg)
      | .expr e =>
        let (ops, g) := emitExpr consts g e
        (ops, wtype e.resolved, g)
      | .arrayLiteral t _ => ([.i32Const 0], wtype t, g)
    let (i, g) := wgLocal g name wt
    (ops ++ [.localSet i], g)

/-- The operation of a compound assignment, if there is one. -/
def compoundOp (wt : ValType) (op : Operator) : List Op :=
  match wt with
  | .f64 => ((binopF op).map Op.fbin).toList
  | .i32 => ((binopI op).map Op.ibin).toList

/-- `HIR_STMT_ASSIGN`. -/
def emitAssign (g : Wg) (op : Option Operator) (value : Expr) : Expr → List Op × Wg
  | .index _ base count first =>
    match base.name?.bind (arrayFind g) with
    | some a =>
      if count = 1 then
        let (is, g) := emitExpr consts g first
        match op with
        | none =>
          let (vs, g) := emitAs consts a.elemWt g value
          (elemAddr a is ++ vs ++ [.store a.access], g)
        | some op =>
          let (is', g) := emitExpr consts g first
          let (vs, g) := emitAs consts a.elemWt g value
          (elemAddr a is ++ elemAddr a is' ++ [.load a.access] ++ vs ++ compoundOp a.elemWt op ++
            [.store a.access], g)
      else ([], g)
    | none => ([], g)
  | .name t x =>
    let (i, g) := wgLocal g x (wtype t)
    match op with
    | none =>
      let (vs, g) := emitExpr consts g value
      (vs ++ [.localSet i], g)
    | some op =>
      let (vs, g) := emitAs consts (wtype t) g value
      ([.localGet i] ++ vs ++ compoundOp (wtype t) op ++ [.localSet i], g)
  | _ => ([], g)

/-- The test at the head of a loop: leave it if the condition is zero. -/
def emitCond (g : Wg) : Option Expr → Code × Wg
  | none => (.ops [], g)
  | some e =>
    let (ops, g) := emitExpr consts g e
    (.seq (.ops (ops ++ [.eqz])) (.brIf 1), g)

mutual

/-- `wg_emit_stmt`. -/
def emitStmt (g : Wg) : Stmt → Code × Wg
  | .bind name type value =>
    let (ops, g) := emitBind consts g name type value
    (.ops ops, g)
  | .assign target op value =>
    let (ops, g) := emitAssign consts g op value target
    (.ops ops, g)
  | .forLoop init cond incr body =>
    let (ci, g) := emitStmt g init
    let (cc, g) := emitCond consts g cond
    let (cb, g) := emitStmts g body
    let (cn, g) := emitStmt g incr
    (.seq ci (.block (.loop (.seq cc (.seq cb (.seq cn (.br 0)))))), g)
  | .ifElse cond thenBody elseBody =>
    let (ops, g) := emitExpr consts g cond
    let (ct, g) := emitStmts g thenBody
    let (ce, g) := emitStmts g elseBody
    (.seq (.ops ops) (.ifElse ct ce), g)
  | .expr e =>
    match printArgs e with
    | some args =>
      let (ops, g) := emitPrintf consts g args
      (.ops ops, g)
    | none => (.ops [], g)
  -- the statements without a case
  | .null | .block _ | .brk | .cont | .ret | .other => (.ops [], g)

def emitStmts (g : Wg) : List Stmt → Code × Wg
  | [] => (.ops [], g)
  | s :: ss =>
    let (c, g) := emitStmt g s
    let (cs, g) := emitStmts g ss
    (.seq c cs, g)

end

/-! ## What an emission does to the tables -/

section Tables

variable {consts : List (String × Expr)} {R : Wg → Wg → Prop}

/-- A relation between tables that the entry of a local keeps. -/
structure Local.Kept (R : Wg → Wg → Prop) : Prop where
  refl : ∀ g, R g g
  trans : ∀ {g g' g''}, R g g' → R g' g'' → R g g''
  wgLocal : ∀ g x wt, R g (wgLocal g x wt).2

/-- A relation between tables that the allocators keep as well. -/
structure Wg.Kept (R : Wg → Wg → Prop) : Prop extends Local.Kept R where
  intern : ∀ g raw, R g (internString g raw).2.2
  logArgs : ∀ g n, R g (logArgs g n)
  declare : ∀ g x t, R g (arrayDecl g x t).2

namespace Local.Kept

theorem exprWith (h : Local.Kept R) {inline : Emit} (hinline : ∀ g e, R g (inline g e).2) (g : Wg)
    (e : Expr) : R g (emitExprWith consts inline g e).2 := by
  induction e generalizing g with
  | name t x =>
    unfold emitExprWith
    split
    · exact hinline _ _
    · exact h.wgLocal _ _ _
  | binary t op l r ihl ihr =>
    unfold emitExprWith
    split
    · exact h.trans (ihl _) (ihr _)
    · exact h.refl _
  | index t base count first _ ih =>
    unfold emitExprWith
    split
    · split
      · exact ih _
      · exact h.refl _
    · exact h.refl _
  | field t base fieldName _ =>
    unfold emitExprWith
    split <;> exact h.refl _
  | literal | unary | string | other => exact h.refl _

theorem depth (h : Local.Kept R) (n : Nat) (g : Wg) (e : Expr) : R g (emitDepth consts n g e).2 := by
  induction n generalizing g e with
  | zero => exact h.refl _
  | succ n ih => exact h.exprWith ih g e

theorem expr (h : Local.Kept R) (g : Wg) (e : Expr) : R g (emitExpr consts g e).2 := h.depth _ g e

theorem as (h : Local.Kept R) (wt : ValType) (g : Wg) (e : Expr) : R g (emitAs consts wt g e).2 := by
  unfold emitAs
  split
  · exact h.expr g e
  · exact h.expr g e

theorem elements (h : Local.Kept R) (g : Wg) (a : Array) (k : Nat) (es : List Expr) :
    R g (emitElements consts g a k es).2 := by
  induction es generalizing g k with
  | nil => exact h.refl _
  | cons e es ih =>
    unfold emitElements
    split
    · exact h.trans (h.as _ _ _) (ih _ _)
    · exact h.refl _

theorem assign (h : Local.Kept R) (g : Wg) (op : Option Operator) (value target : Expr) :
    R g (emitAssign consts g op value target).2 := by
  unfold emitAssign
  split
  · split
    · split
      · cases op with
        | none => exact h.trans (h.expr _ _) (h.as _ _ _)
        | some op => exact h.trans (h.expr _ _) (h.trans (h.expr _ _) (h.as _ _ _))
      · exact h.refl _
    · exact h.refl _
  · cases op with
    | none => exact h.trans (h.wgLocal _ _ _) (h.expr _ _)
    | some op => exact h.trans (h.wgLocal _ _ _) (h.as _ _ _)
  · exact h.refl _

theorem cond (h : Local.Kept R) (g : Wg) (cond : Option Expr) : R g (emitCond consts g cond).2 := by
  cases cond with
  | none => exact h.refl _
  | some e => exact h.expr g e

end Local.Kept

namespace Wg.Kept

theorem slot (h : Wg.Kept R) (g : Wg) (n : Nat) (e : Expr) : R g (emitSlot consts g n e).2 := by
  unfold emitSlot
  split
  · exact h.intern _ _
  · split
    · split <;> exact h.refl _
    · exact h.expr g _

theorem slots (h : Wg.Kept R) (g : Wg) (n : Nat) (es : List Expr) :
    R g (emitSlots consts g n es).2 := by
  induction es generalizing g n with
  | nil => exact h.refl _
  | cons e es ih => exact h.trans (h.slot _ _ _) (ih _ _)

theorem printf (h : Wg.Kept R) (g : Wg) (args : List Expr) : R g (emitPrintf consts g args).2 := by
  unfold emitPrintf
  split
  · next fmt args =>
    cases args with
    | nil => exact h.intern _ _
    | cons e es =>
      simp only [reduceCtorEq, if_false]
      exact h.trans (h.intern _ _) (h.trans (h.logArgs _ _) (h.slots _ _ _))
  · exact h.refl _

theorem bind (h : Wg.Kept R) (g : Wg) (x : String) (type : HirType) (value : Init) :
    R g (emitBind consts g x type value).2 := by
  unfold emitBind
  split
  · next t _ =>
    have hdecl := h.declare g x t
    generalize arrayDecl g x t = d at hdecl
    obtain ⟨a, g'⟩ := d
    simp only
    split
    · exact h.trans hdecl (h.elements _ _ _ _)
    · exact hdecl
  · cases value with
    | none => exact h.wgLocal _ _ _
    | expr e => exact h.trans (h.expr _ _) (h.wgLocal _ _ _)
    | arrayLiteral t es => exact h.wgLocal _ _ _

mutual

theorem stmt (h : Wg.Kept R) (g : Wg) : (s : Stmt) → R g (emitStmt consts g s).2
  | .bind x type value => by
    rw [emitStmt]
    exact h.bind g x type value
  | .assign target op value => by
    rw [emitStmt]
    exact h.assign g op value target
  | .forLoop init cond incr body => by
    rw [emitStmt]
    exact h.trans (stmt h g init) (h.trans (h.cond _ cond) (h.trans (stmts h _ body) (stmt h _ incr)))
  | .ifElse cond t e => by
    rw [emitStmt]
    exact h.trans (h.expr g cond) (h.trans (stmts h _ t) (stmts h _ e))
  | .expr e => by
    rw [emitStmt]
    split
    · exact h.printf g _
    · exact h.refl g
  | .null | .block _ | .brk | .cont | .ret | .other => by
    rw [emitStmt]
    exact h.refl g

theorem stmts (h : Wg.Kept R) (g : Wg) : (ss : List Stmt) → R g (emitStmts consts g ss).2
  | [] => by
    rw [emitStmts]
    exact h.refl g
  | s :: ss => by
    rw [emitStmts]
    exact h.trans (stmt h g s) (stmts h _ ss)

end

end Wg.Kept

end Tables

/-! ## The module -/

/-- The constants: the first 256 that have a value. -/
def constsOf (p : Program) : List (String × Expr) :=
  (p.filterMap fun d => match d with | .const x e => some (x, e) | _ => none).take maxLocals

def hasRun (p : Program) : Bool := p.any fun d => match d with | .run _ => true | _ => false

/-- The systems without parameters, in the order of their declarations. -/
def runOnceSystems (p : Program) : List (String × List Stmt) :=
  p.filterMap fun d => match d with
    | .kernel x .system 0 stmts => some (x, stmts)
    | _ => none

/-- The systems `wasmgen_generate` emits into `_start`. -/
def entrySystems (p : Program) : List (String × List Stmt) := if hasRun p then runOnceSystems p else []

/-- The code of the systems, one after the other, and the tables at the end. -/
def emitSystems (g : Wg) : List (String × List Stmt) → List (String × Code) × Wg
  | [] => ([], g)
  | (x, stmts) :: rest =>
    let (c, g) := emitStmts consts g stmts
    let (cs, g) := emitSystems g rest
    ((x, c) :: cs, g)

/-- The body of `_start`, by system, and the tables. -/
def generate (p : Program) : List (String × Code) × Wg :=
  emitSystems (constsOf p) .init (entrySystems p)

section

variable {consts : List (String × Expr)}

theorem emitStmts_append (g : Wg) (ss ts : List Stmt) :
    (emitStmts consts g (ss ++ ts)).2 = (emitStmts consts (emitStmts consts g ss).2 ts).2 := by
  induction ss generalizing g with
  | nil => rfl
  | cons s ss ih => exact ih _

/-- The systems are emitted like one body. -/
theorem emitSystems_tables (g : Wg) (systems : List (String × List Stmt)) :
    (emitSystems consts g systems).2 = (emitStmts consts g (systems.flatMap (·.2))).2 := by
  induction systems generalizing g with
  | nil => rfl
  | cons sys rest ih =>
    rw [List.flatMap_cons, emitStmts_append, ← ih]
    rfl

end

/-- All statements of the entry. -/
def entryStmts (p : Program) : List Stmt := (entrySystems p).flatMap (·.2)

theorem generate_tables (p : Program) :
    (generate p).2 = (emitStmts (constsOf p) .init (entryStmts p)).2 := emitSystems_tables _ _

end Arche.Codegen.WasmGen
