import Mathlib.Data.List.Basic
import Mathlib.Tactic.Common

/-!
# The self-binder of a pure map

In `map (query { … } as me)` the fields of `me` are the columns of the row the fan is at.
`self_bind_rewrite_stmt` replaces them by names: a read by the marked name of the column, a write by
its bare name. What a name stands for is decided by `codegen_expression`, in the scopes it has open:
the branches of an `if` open none.

* `codegenAll` is the body with each name replaced by what code generation finds for it, a `Place`
  for each state of the fold around it. `meaningAll` is the body with each reference replaced by what
  it means: a field of the binder is the column in the row of the fan, whatever is folded.
* A `Site` is a use of the binder's name, with the locals that code generation finds there.

1. `selfBind_eliminated_iff`: the rewritten body is read as the body means, if and only if each use
   of the binder is `Fine`.
2. `not_selfBind_eliminated`: a bound of a slice is not rewritten.
-/

namespace Arche.Lower.SelfBinder

abbrev Name := List Char

/-! ## The lowered body -/

inductive Operator
  | none
  | add
  | sub
  | mul
  | div
  | mod
  | eq
  | neq
  | lt
  | gt
  | lte
  | gte
  | and
  | or
  | fmap
deriving DecidableEq, Repr

inductive UnaryOperator
  | neg
  | not
  | move
  | copy
deriving DecidableEq, Repr

/-- `HIR_EXPR_*`, and the null pointer of a bound or a condition that is not written. -/
inductive Expr (ν : Type)
  | null
  | literal (lexeme : Name)
  | name (n : ν)
  | field (base : Expr ν) (f : Name)
  | index (base : Expr ν) (indices : List (Expr ν))
  | slice (base lo hi : Expr ν)
  | binary (op : Operator) (l r : Expr ν)
  | unary (op : UnaryOperator) (e : Expr ν)
  | call (callee : Expr ν) (args : List (Expr ν))
  | entityLit (type : Name) (fields : List Name) (values : List (Expr ν))
  | arrayLiteral (elements : List (Expr ν))
  | string (value : Name)

/-- The statements that are no transform of a row: a map has none of them. -/
inductive Other
  | run
  | multiBind
  | eachField
  | each
deriving DecidableEq, Repr

/-- `HIR_STMT_*`, and the null pointer of a loop header. -/
inductive Stmt (ν : Type)
  | null
  | bind (n : Name) (value : Expr ν)
  | assign (target : Expr ν) (op : Operator) (value : Expr ν)
  | forS (init : Stmt ν) (cond : Expr ν) (incr : Stmt ν) (body : List (Stmt ν))
  | ite (cond : Expr ν) (thn els : List (Stmt ν))
  | breakS
  | continueS
  | expr (e : Expr ν)
  | ret (values : List (Expr ν))
  | block (stmts : List (Stmt ν))
  | other (kind : Other)

/-! ## The rewrite -/

/-- `SELF_READ_MARK`. -/
def selfReadMark : Char := Char.ofNat 0x1f

/-- `ROW_ID_MARK`. -/
def rowIdMark : Char := Char.ofNat 0x1e

/-- The field that is no column but the number of the row. -/
def idName : Name := ['i', 'd']

def isName (self : Name) : Expr Name → Bool
  | .name n => n == self
  | _ => false

/-- The name that a field of the binder becomes. -/
def collapsed (toSelf : Bool) (f : Name) : Name :=
  if f = idName then [rowIdMark, 'i'] else if toSelf then selfReadMark :: f else f

mutual

/-- `self_bind_rewrite_expr`. -/
def rewriteExpr (self : Name) (toSelf : Bool) : Expr Name → Expr Name
  | .field b f =>
    if isName self (rewriteExpr self toSelf b) then .name (collapsed toSelf f)
    else .field (rewriteExpr self toSelf b) f
  | .index b is => .index (rewriteExpr self toSelf b) (rewriteExprs self toSelf is)
  | .binary op l r => .binary op (rewriteExpr self toSelf l) (rewriteExpr self toSelf r)
  | .unary op e => .unary op (rewriteExpr self toSelf e)
  | .call c args => .call (rewriteExpr self toSelf c) (rewriteExprs self toSelf args)
  | .entityLit t fs vs => .entityLit t fs (rewriteExprs self toSelf vs)
  | .arrayLiteral es => .arrayLiteral (rewriteExprs self toSelf es)
  | .null => .null
  | .literal l => .literal l
  | .name n => .name n
  | .slice b lo hi => .slice b lo hi
  | .string s => .string s

def rewriteExprs (self : Name) (toSelf : Bool) : List (Expr Name) → List (Expr Name)
  | [] => []
  | e :: es => rewriteExpr self toSelf e :: rewriteExprs self toSelf es

end

mutual

/-- `self_bind_rewrite_stmt`. -/
def rewriteStmt (self : Name) : Stmt Name → Stmt Name
  | .bind n v => .bind n (rewriteExpr self true v)
  | .assign t op v => .assign (rewriteExpr self false t) op (rewriteExpr self true v)
  | .forS init cond incr body =>
    .forS (rewriteStmt self init) (rewriteExpr self true cond) (rewriteStmt self incr)
      (rewriteStmts self body)
  | .ite cond thn els =>
    .ite (rewriteExpr self true cond) (rewriteStmts self thn) (rewriteStmts self els)
  | .expr e => .expr (rewriteExpr self true e)
  | .ret vs => .ret (rewriteExprs self true vs)
  | .block ss => .block (rewriteStmts self ss)
  | .null => .null
  | .breakS => .breakS
  | .continueS => .continueS
  | .other k => .other k

def rewriteStmts (self : Name) : List (Stmt Name) → List (Stmt Name)
  | [] => []
  | s :: ss => rewriteStmt self s :: rewriteStmts self ss

end

/-! ## What code generation reads -/

/-- The rows a column is read at: the literal `0`, the row of the fan, the row of a fan around it, the
counter of a fold. -/
inductive Row
  | first
  | fan
  | outer
  | fold
deriving DecidableEq, Repr

/-- A bound column. `array` says that a row of it has more than one element, `single` that its pool
has one row. -/
structure Column where
  name : Name
  pool : Name
  array : Bool
  single : Bool
  loopIdx : Option Row
deriving DecidableEq, Repr

inductive Value
  | localVar (n : Name)
  | column (c : Column)
deriving DecidableEq, Repr

def Value.name : Value → Name
  | .localVar n => n
  | .column c => c.name

/-- A place that a name stands for. `binder` is the row as a whole, `nothing` that the name has no
value in this context. -/
inductive Place
  | localVar (n : Name)
  | column (c : Name) (row : Row)
  | rowId
  | binder
  | nothing (n : Name)
deriving DecidableEq, Repr

/-- The place in each state of the fold: none, or over a pool. -/
abbrev Leaf := Option Name → Place

/-- An identifier of the source has no mark. -/
def IsIdent (n : Name) : Prop := n.head? ≠ some selfReadMark ∧ n.head? ≠ some rowIdMark

/-- The fan of the map: whether it is nested in a columnar system, its columns, newest first, and the
values of the scopes around it. `codegen_each_fan` pins the columns to its row; those of a flat map,
which is never nested, are not pinned. -/
structure Fan where
  nested : Bool
  columns : List Column
  outer : List Value
  pinned : ∀ c ∈ columns, c.loopIdx = some .fan ∨ c.loopIdx = none ∧ nested = false
  idents : ∀ c ∈ columns, IsIdent c.name

/-- The column that a name of the query stands for. -/
def Fan.column (F : Fan) (f : Name) : Option Column := F.columns.find? (·.name == f)

/-- `find_value` in the scopes of the body, where these locals have been generated. -/
def Fan.findValue (F : Fan) (locals : List Name) (n : Name) : Option Value :=
  (locals.map Value.localVar ++ F.columns.map Value.column ++ F.outer).find? (·.name == n)

/-- The row at which the name of a column is read. -/
def readRow (nested : Bool) (c : Column) (fold : Option Name) : Row :=
  if c.single then .first
  else
    match c.loopIdx with
    | some r => r
    | none => if nested = true ∧ fold = some c.pool then .fold else .fan

def Fan.read (F : Fan) (locals : List Name) (n : Name) : Leaf :=
  match F.findValue locals n with
  | some (.localVar x) => fun _ => .localVar x
  | some (.column c) => fun fold => .column c.name (readRow F.nested c fold)
  | none => fun _ => .nothing n

/-- The `HIR_EXPR_NAME` case of `codegen_expression`: a self-read clears the fold. -/
def Fan.readName (F : Fan) (locals : List Name) (n : Name) : Leaf :=
  if n.head? = some rowIdMark then fun _ => .rowId
  else if n.head? = some selfReadMark then fun _ => F.read locals n.tail none
  else F.read locals n

/-- The name at the base of an element that is read: a column stands for its first row, and the row is
added again for an array that is found under the name as it is written. -/
def Fan.readBase (F : Fan) (locals : List Name) (n : Name) : Leaf :=
  if n.head? = some rowIdMark then fun _ => .nothing n
  else if n.head? = some selfReadMark then
    match F.findValue locals n.tail with
    | some (.localVar x) => fun _ => .localVar x
    | some (.column c) => fun _ => .column c.name .first
    | none => fun _ => .nothing n.tail
  else
    match F.findValue locals n with
    | some (.localVar x) => fun _ => .localVar x
    | some (.column c) =>
      fun _ => .column c.name (if c.array && !c.single then c.loopIdx.getD .fan else .first)
    | none => fun _ => .nothing n

section Codegen

variable (F : Fan) (locals : List Name)

mutual

/-- `codegen_expression`, as far as names go. The base of an element is no name of its own. -/
def codegenExpr : Expr Name → Expr Leaf
  | .null => .null
  | .literal l => .literal l
  | .name n => .name (F.readName locals n)
  | .field b f => .field (codegenExpr b) f
  | .index b is =>
    .index (match b with | .name n => .name (F.readBase locals n) | _ => codegenExpr b)
      (codegenExprs is)
  | .slice b lo hi => .slice (codegenExpr b) (codegenExpr lo) (codegenExpr hi)
  | .binary op l r => .binary op (codegenExpr l) (codegenExpr r)
  | .unary op e => .unary op (codegenExpr e)
  | .call c args => .call (codegenExpr c) (codegenExprs args)
  | .entityLit t fs vs => .entityLit t fs (codegenExprs vs)
  | .arrayLiteral es => .arrayLiteral (codegenExprs es)
  | .string s => .string s

def codegenExprs : List (Expr Name) → List (Expr Leaf)
  | [] => []
  | e :: es => codegenExpr e :: codegenExprs es

end

/-- The target of an assignment: the base of an element is the place of its name. -/
def codegenTarget : Expr Name → Expr Leaf
  | .index b is => .index (codegenExpr F locals b) (codegenExprs F locals is)
  | e => codegenExpr F locals e

end Codegen

mutual

/-- The locals of the open scopes after a statement. Only a loop closes its scope. -/
def after {ν : Type} (locals : List Name) : Stmt ν → List Name
  | .bind n _ => n :: locals
  | .ite _ thn els => afterAll (afterAll locals thn) els
  | .block ss => afterAll locals ss
  | _ => locals

def afterAll {ν : Type} (locals : List Name) : List (Stmt ν) → List Name
  | [] => locals
  | s :: ss => afterAll (after locals s) ss

end

mutual

/-- `codegen_statement`; the increment of a loop comes after its body. -/
def codegenStmt (F : Fan) (locals : List Name) : Stmt Name → Stmt Leaf
  | .bind n v => .bind n (codegenExpr F locals v)
  | .assign t op v => .assign (codegenTarget F locals t) op (codegenExpr F locals v)
  | .forS init cond incr body =>
    .forS (codegenStmt F locals init) (codegenExpr F (after locals init) cond)
      (codegenStmt F (afterAll (after locals init) body) incr)
      (codegenStmts F (after locals init) body)
  | .ite cond thn els =>
    .ite (codegenExpr F locals cond) (codegenStmts F locals thn)
      (codegenStmts F (afterAll locals thn) els)
  | .expr e => .expr (codegenExpr F locals e)
  | .ret vs => .ret (codegenExprs F locals vs)
  | .block ss => .block (codegenStmts F locals ss)
  | .null => .null
  | .breakS => .breakS
  | .continueS => .continueS
  | .other k => .other k

def codegenStmts (F : Fan) (locals : List Name) : List (Stmt Name) → List (Stmt Leaf)
  | [] => []
  | s :: ss => codegenStmt F locals s :: codegenStmts F (after locals s) ss

end

/-! ## What the body means -/

/-- The column in the row of the fan, or the number of that row. -/
def Fan.own (F : Fan) (f : Name) : Leaf :=
  if f = idName then fun _ => .rowId
  else
    match F.column f with
    | some c => fun _ => .column c.name (if c.single then .first else .fan)
    | none => fun _ => .nothing f

section Meaning

variable (F : Fan) (self : Name) (locals : List Name) (shadowed : Bool)

/-- The expression is the binder: its name, where no local has it. -/
def isBinder (e : Expr Name) : Bool := isName self e && !shadowed

mutual

/-- The references of an expression. Names that are not the binder's are those of `codegenExpr`. -/
def meaningExpr : Expr Name → Expr Leaf
  | .null => .null
  | .literal l => .literal l
  | .name n => .name (if n == self && !shadowed then fun _ => .binder else F.readName locals n)
  | .field b f =>
    if isBinder self shadowed b then .name (F.own f) else .field (meaningExpr b) f
  | .index b is =>
    .index
      (match b with
        | .name n =>
          .name (if n == self && !shadowed then fun _ => .binder else F.readBase locals n)
        | _ => meaningExpr b)
      (meaningExprs is)
  | .slice b lo hi => .slice (meaningExpr b) (meaningExpr lo) (meaningExpr hi)
  | .binary op l r => .binary op (meaningExpr l) (meaningExpr r)
  | .unary op e => .unary op (meaningExpr e)
  | .call c args => .call (meaningExpr c) (meaningExprs args)
  | .entityLit t fs vs => .entityLit t fs (meaningExprs vs)
  | .arrayLiteral es => .arrayLiteral (meaningExprs es)
  | .string s => .string s

def meaningExprs : List (Expr Name) → List (Expr Leaf)
  | [] => []
  | e :: es => meaningExpr e :: meaningExprs es

end

def meaningTarget : Expr Name → Expr Leaf
  | .index b is =>
    .index (meaningExpr F self locals shadowed b) (meaningExprs F self locals shadowed is)
  | e => meaningExpr F self locals shadowed e

end Meaning

/-- The statement declares a local of the binder's name. -/
def declares {ν : Type} (self : Name) : Stmt ν → Bool
  | .bind n _ => n == self
  | _ => false

mutual

/-- The references of a statement. A local hides the binder up to the end of its block. -/
def meaningStmt (F : Fan) (self : Name) (locals : List Name) (shadowed : Bool) :
    Stmt Name → Stmt Leaf
  | .bind n v => .bind n (meaningExpr F self locals shadowed v)
  | .assign t op v =>
    .assign (meaningTarget F self locals shadowed t) op (meaningExpr F self locals shadowed v)
  | .forS init cond incr body =>
    .forS (meaningStmt F self locals shadowed init)
      (meaningExpr F self (after locals init) (shadowed || declares self init) cond)
      (meaningStmt F self (afterAll (after locals init) body) (shadowed || declares self init) incr)
      (meaningStmts F self (after locals init) (shadowed || declares self init) body)
  | .ite cond thn els =>
    .ite (meaningExpr F self locals shadowed cond) (meaningStmts F self locals shadowed thn)
      (meaningStmts F self (afterAll locals thn) shadowed els)
  | .expr e => .expr (meaningExpr F self locals shadowed e)
  | .ret vs => .ret (meaningExprs F self locals shadowed vs)
  | .block ss => .block (meaningStmts F self locals shadowed ss)
  | .null => .null
  | .breakS => .breakS
  | .continueS => .continueS
  | .other k => .other k

def meaningStmts (F : Fan) (self : Name) (locals : List Name) (shadowed : Bool) :
    List (Stmt Name) → List (Stmt Leaf)
  | [] => []
  | s :: ss =>
    meaningStmt F self locals shadowed s ::
      meaningStmts F self (after locals s) (shadowed || declares self s) ss

end

/-! ## The uses of the binder -/

/-- A use of the binder's name: by itself, for a column, for an element of one, for a component in a
target of the column that has the binder's own name, in a slice. -/
inductive Use
  | bare
  | column (f : Name)
  | element (f : Name)
  | component
  | sliced (u : Use)
deriving DecidableEq, Repr

/-- A chain `me.me…` of the binder's name. -/
def isSelfChain (self : Name) : Expr Name → Bool
  | .name n => n == self
  | .field b f => isSelfChain self b && f == self && f != idName
  | _ => false

section Uses

variable (self : Name) (toSelf : Bool)

mutual

/-- The uses in an expression; `toSelf` is false in a target. -/
def uses : Expr Name → List Use
  | .name n => if n == self then [.bare] else []
  | .field b f =>
    if isName self b then [.column f]
    else if !toSelf && isSelfChain self b then [.component]
    else uses b
  | .index b is =>
    (match b with
      | .field (.name n) f => if n == self then [.element f] else []
      | _ => uses b) ++ usesAll is
  | .slice b lo hi => (uses b ++ uses lo ++ uses hi).map .sliced
  | .binary _ l r => uses l ++ uses r
  | .unary _ e => uses e
  | .call c args => uses c ++ usesAll args
  | .entityLit _ _ vs => usesAll vs
  | .arrayLiteral es => usesAll es
  | .null | .literal _ | .string _ => []

def usesAll : List (Expr Name) → List Use
  | [] => []
  | e :: es => uses e ++ usesAll es

end

end Uses

def targetUses (self : Name) : Expr Name → List Use
  | .index b is => uses self false b ++ usesAll self false is
  | e => uses self false e

/-- A use with the locals that code generation finds there, whether a local hides the binder, and
whether it is outside of targets. -/
structure Site where
  locals : List Name
  shadowed : Bool
  toSelf : Bool
  use : Use

mutual

def sites (self : Name) (locals : List Name) (shadowed : Bool) : Stmt Name → List Site
  | .bind _ v => (uses self true v).map (⟨locals, shadowed, true, ·⟩)
  | .assign t _ v =>
    (targetUses self t).map (⟨locals, shadowed, false, ·⟩) ++
      (uses self true v).map (⟨locals, shadowed, true, ·⟩)
  | .forS init cond incr body =>
    sites self locals shadowed init ++
      (uses self true cond).map
        (⟨after locals init, shadowed || declares self init, true, ·⟩) ++
      sites self (afterAll (after locals init) body) (shadowed || declares self init) incr ++
      sitesAll self (after locals init) (shadowed || declares self init) body
  | .ite cond thn els =>
    (uses self true cond).map (⟨locals, shadowed, true, ·⟩) ++
      sitesAll self locals shadowed thn ++ sitesAll self (afterAll locals thn) shadowed els
  | .expr e => (uses self true e).map (⟨locals, shadowed, true, ·⟩)
  | .ret vs => (usesAll self true vs).map (⟨locals, shadowed, true, ·⟩)
  | .block ss => sitesAll self locals shadowed ss
  | .null | .breakS | .continueS | .other _ => []

def sitesAll (self : Name) (locals : List Name) (shadowed : Bool) : List (Stmt Name) → List Site
  | [] => []
  | s :: ss =>
    sites self locals shadowed s ++
      sitesAll self (after locals s) (shadowed || declares self s) ss

end

/-- The field that is asked of the binder's name. -/
def Use.field? : Use → Option Name
  | .bare | .component => none
  | .column f | .element f => some f
  | .sliced u => u.field?

mutual

/-- The statements that E0046 and E0029 let through. -/
def transform {ν : Type} : Stmt ν → Bool
  | .null | .bind _ _ | .assign _ _ _ | .breakS | .continueS | .expr _ => true
  | .forS init _ incr body => transform init && transform incr && transforms body
  | .ite _ thn els => transforms thn && transforms els
  | .block ss => transforms ss
  | .ret _ | .other _ => false

def transforms {ν : Type} : List (Stmt ν) → Bool
  | [] => true
  | s :: ss => transform s && transforms ss

end

/-- The front end accepts the body: it has transforms only, and asks the binder's name for columns of
the query or for the number of the row (E0229). -/
structure Accepted (F : Fan) (me : Name) (body : List (Stmt Name)) : Prop where
  ident : IsIdent me
  transforms : transforms body = true
  queried : ∀ s ∈ sitesAll me [] false body, ∀ f, s.use.field? = some f →
    f = idName ∨ (F.column f).isSome = true

/-- The rewritten name is read as the use means.

* A use by itself or in a slice, where a local hides the binder.
* A column that no local found there is named after, where no local hides the binder.
* An element of such a column: in a pool of one row, or of an array inside a target. -/
def Use.Fine (F : Fan) (locals : List Name) (shadowed toSelf : Bool) : Use → Prop
  | .bare | .sliced _ => shadowed = true
  | .column f => shadowed = false ∧ (f = idName ∨ f ∉ locals)
  | .element f => shadowed = false ∧ f ≠ idName ∧ f ∉ locals ∧
      ∃ c, F.column f = some c ∧ (c.single = true ∨ toSelf = false ∧ c.array = true)
  | .component => False

def Site.Fine (F : Fan) (s : Site) : Prop := s.use.Fine F s.locals s.shadowed s.toSelf

/-! ## Places -/

variable {F : Fan} {self : Name} {locals : List Name} {shadowed toSelf : Bool}

def Use.Queried (F : Fan) (u : Use) : Prop :=
  ∀ f, u.field? = some f → f = idName ∨ (F.column f).isSome = true

theorem column_some {f : Name} {c : Column} (h : F.column f = some c) :
    c ∈ F.columns ∧ c.name = f :=
  ⟨List.mem_of_find?_eq_some h, by simpa using List.find?_some h⟩

theorem findValue_local {f : Name} (h : f ∈ locals) :
    F.findValue locals f = some (.localVar f) := by
  have hfind : (locals.map Value.localVar).find? (·.name == f) = some (.localVar f) := by
    induction locals with
    | nil => cases h
    | cons n locals ih =>
      by_cases hn : n = f
      · simp [hn, Value.name]
      · have hmem : f ∈ locals := by simpa [Ne.symm hn] using h
        simpa [hn, Value.name] using ih hmem
  rw [Fan.findValue, List.append_assoc, List.find?_append, hfind]
  rfl

theorem findValue_column {f : Name} {c : Column} (h : f ∉ locals) (hc : F.column f = some c) :
    F.findValue locals f = some (.column c) := by
  have hlocals : (locals.map Value.localVar).find? (·.name == f) = none := by
    rw [List.find?_eq_none]
    intro v hv
    obtain ⟨n, hn, rfl⟩ := List.mem_map.mp hv
    simpa [Value.name] using fun he : n = f => h (he ▸ hn)
  have hcolumns : (F.columns.map Value.column).find? (·.name == f) = some (.column c) := by
    rw [List.find?_map]
    exact congrArg (Option.map Value.column) hc
  rw [Fan.findValue, List.append_assoc, List.find?_append, hlocals, List.find?_append, hcolumns]
  rfl

theorem read_local {f : Name} (h : f ∈ locals) : F.read locals f = fun _ => .localVar f := by
  rw [Fan.read, findValue_local h]

/-- A column of the fan is read in its row in each state of the fold. -/
theorem read_column {f : Name} {c : Column} (h : f ∉ locals) (hc : F.column f = some c) :
    F.read locals f = fun _ => .column c.name (if c.single then .first else .fan) := by
  rw [Fan.read, findValue_column h hc]
  funext fold
  have hrow : readRow F.nested c fold = if c.single then .first else .fan := by
    unfold readRow
    split
    · rfl
    · obtain hpin | ⟨hnone, hflat⟩ := F.pinned c (column_some hc).1
      · rw [hpin]
      · simp [hnone, hflat]
  exact congrArg (Place.column c.name) hrow

theorem readName_ident {n : Name} (h : IsIdent n) : F.readName locals n = F.read locals n := by
  rw [Fan.readName, if_neg h.2, if_neg h.1]

theorem collapsed_id (toSelf : Bool) : collapsed toSelf idName = [rowIdMark, 'i'] := if_pos rfl

theorem own_id : F.own idName = fun _ => .rowId := if_pos rfl

theorem own_column {f : Name} {c : Column} (hf : f ≠ idName) (hc : F.column f = some c) :
    F.own f = fun _ => .column c.name (if c.single then .first else .fan) := by
  rw [Fan.own, if_neg hf, hc]

/-- The name of a column reads what code generation finds for it, marked or not. -/
theorem readName_collapsed {f : Name} {c : Column} (hf : f ≠ idName) (hc : F.column f = some c)
    (hread : F.read locals f = fun _ => F.read locals f none) :
    F.readName locals (collapsed toSelf f) = F.read locals f := by
  rw [collapsed, if_neg hf]
  cases toSelf with
  | true => exact hread.symm
  | false =>
    obtain ⟨hmem, rfl⟩ := column_some hc
    exact readName_ident (F.idents c hmem)

theorem readName_collapsed_iff {f : Name} (h : f = idName ∨ (F.column f).isSome = true) :
    F.readName locals (collapsed toSelf f) = F.own f ↔ f = idName ∨ f ∉ locals := by
  by_cases hid : f = idName
  · subst hid
    rw [collapsed_id, own_id]
    exact iff_of_true rfl (.inl rfl)
  · obtain ⟨c, hc⟩ := Option.isSome_iff_exists.mp (h.resolve_left hid)
    rw [own_column hid hc]
    by_cases hlocal : f ∈ locals
    · have hread := read_local (F := F) hlocal
      rw [readName_collapsed hid hc (by rw [hread]), hread]
      refine iff_of_false (fun he => ?_) (by simp [hid, hlocal])
      exact absurd (congrFun he none) nofun
    · have hread := read_column hlocal hc
      rw [readName_collapsed hid hc (by rw [hread]), hread]
      exact iff_of_true rfl (.inr hlocal)

theorem readBase_local {f : Name} (h : f ∈ locals) (hf : f ≠ idName)
    (hident : IsIdent f) : F.readBase locals (collapsed toSelf f) = fun _ => .localVar f := by
  rw [collapsed, if_neg hf]
  cases toSelf with
  | true => simp [Fan.readBase, selfReadMark, rowIdMark, findValue_local h]
  | false =>
    have hname : (if false = true then selfReadMark :: f else f) = f := rfl
    rw [hname, Fan.readBase, if_neg hident.2, if_neg hident.1, findValue_local h]

/-- The row of an array is added again only under the bare name. -/
theorem readBase_column {f : Name} {c : Column} (h : f ∉ locals) (hf : f ≠ idName)
    (hc : F.column f = some c) : F.readBase locals (collapsed toSelf f) =
      fun _ => .column c.name (if !toSelf && c.array && !c.single then .fan else .first) := by
  obtain ⟨hmem, hname⟩ := column_some hc
  have hident : IsIdent f := hname ▸ F.idents c hmem
  rw [collapsed, if_neg hf]
  cases toSelf with
  | true => simp [Fan.readBase, selfReadMark, rowIdMark, findValue_column h hc]
  | false =>
    have hbare : (if false = true then selfReadMark :: f else f) = f := rfl
    have hrow : c.loopIdx.getD .fan = .fan := by
      obtain hpin | ⟨hnone, -⟩ := F.pinned c hmem
      · rw [hpin]
        rfl
      · rw [hnone]
        rfl
    rw [hbare, Fan.readBase, if_neg hident.2, if_neg hident.1, findValue_column h hc]
    dsimp only
    rw [hrow]
    rfl

theorem readBase_collapsed_iff {f : Name} (h : f = idName ∨ (F.column f).isSome = true) :
    F.readBase locals (collapsed toSelf f) = F.own f ↔ f ≠ idName ∧ f ∉ locals ∧
      ∃ c, F.column f = some c ∧ (c.single = true ∨ toSelf = false ∧ c.array = true) := by
  by_cases hid : f = idName
  · subst hid
    rw [collapsed_id, own_id]
    refine iff_of_false (fun he => ?_) (fun he => he.1 rfl)
    exact absurd (congrFun he none) (by simp [Fan.readBase])
  · obtain ⟨c, hc⟩ := Option.isSome_iff_exists.mp (h.resolve_left hid)
    obtain ⟨hmem, hname⟩ := column_some hc
    rw [own_column hid hc]
    by_cases hlocal : f ∈ locals
    · rw [readBase_local hlocal hid (hname ▸ F.idents c hmem)]
      refine iff_of_false (fun he => ?_) (fun he => he.2.1 hlocal)
      exact absurd (congrFun he none) nofun
    · rw [readBase_column hlocal hid hc]
      have hplace : ((fun _ => Place.column c.name
            (if !toSelf && c.array && !c.single then Row.fan else .first) : Leaf) =
          fun _ => .column c.name (if c.single then .first else .fan)) ↔
          c.single = true ∨ toSelf = false ∧ c.array = true := by
        constructor
        · intro he
          have hrow := congrFun he none
          cases hs : c.single <;> cases ha : c.array <;> cases toSelf <;> simp_all
        · intro he
          cases hs : c.single <;> cases ha : c.array <;> cases toSelf <;> simp_all
      rw [hplace]
      constructor
      · exact fun he => ⟨hid, hlocal, c, hc, he⟩
      · rintro ⟨-, -, c', hc', he⟩
        rw [hc] at hc'
        obtain rfl := Option.some.inj hc'
        exact he

/-- No name is read as the row as a whole. -/
theorem readName_ne_binder (n : Name) : F.readName locals n ≠ fun _ => .binder := by
  have hread : ∀ m, F.read locals m none ≠ .binder := by
    intro m
    rw [Fan.read]
    cases F.findValue locals m with
    | none => nofun
    | some v => cases v <;> nofun
  intro he
  have hnone := congrFun he none
  unfold Fan.readName at hnone
  split at hnone
  · cases hnone
  · split at hnone
    · exact hread _ hnone
    · exact hread _ hnone

theorem readBase_ne_binder (n : Name) : F.readBase locals n ≠ fun _ => .binder := by
  intro he
  have hnone := congrFun he none
  unfold Fan.readBase at hnone
  split at hnone
  · cases hnone
  · split at hnone
    · cases hv : F.findValue locals n.tail with
      | none => simp [hv] at hnone
      | some v => cases v <;> simp [hv] at hnone
    · cases hv : F.findValue locals n with
      | none => simp [hv] at hnone
      | some v => cases v <;> simp [hv] at hnone

/-! ## Expressions -/

theorem isName_iff {e : Expr Name} : isName self e = true ↔ e = .name self := by
  cases e <;> simp [isName]

theorem isSelfChain_of_isName {e : Expr Name} (h : isName self e = true) :
    isSelfChain self e = true := by
  rw [isName_iff.mp h]
  simp [isSelfChain]

/-- The name of a field is the binder's name only in a target, and for the column of that name. -/
theorem collapsed_eq_self (hself : IsIdent self) (f : Name) :
    (collapsed toSelf f == self) = (!toSelf && f == self && f != idName) := by
  have hmark : ∀ c g, (c = selfReadMark ∨ c = rowIdMark) → c :: g ≠ self := by
    rintro c g hc rfl
    obtain rfl | rfl := hc
    · exact hself.1 rfl
    · exact hself.2 rfl
  unfold collapsed
  by_cases hid : f = idName
  · simp [hid, hmark rowIdMark ['i'] (.inr rfl)]
  · cases toSelf with
    | true => simp [hid, hmark selfReadMark f (.inl rfl)]
    | false => simp [hid]

theorem isName_rewrite (hself : IsIdent self) : ∀ e : Expr Name,
    isName self (rewriteExpr self toSelf e) =
      (isName self e || (!toSelf && isSelfChain self e))
  | .field b f => by
    have ih := isName_rewrite hself b
    rw [rewriteExpr, ih]
    cases hname : isName self b with
    | true =>
      simp [isName, isSelfChain, collapsed_eq_self hself, isSelfChain_of_isName hname, Bool.and_assoc]
    | false =>
      cases hchain : isSelfChain self b <;> cases toSelf <;>
        simp [isName, isSelfChain, hchain, collapsed_eq_self hself]
  | .name n => by cases toSelf <;> simp [rewriteExpr, isName, isSelfChain]
  | .null | .literal _ | .index _ _ | .slice _ _ _ | .binary _ _ _ | .unary _ _ | .call _ _
  | .entityLit _ _ _ | .arrayLiteral _ | .string _ => by
    simp [rewriteExpr, isName, isSelfChain]

mutual

/-- Where a local hides the binder, its name is as any other. -/
theorem meaningExpr_shadowed : ∀ e : Expr Name,
    meaningExpr F self locals true e = codegenExpr F locals e
  | .field b f => by simp [meaningExpr, codegenExpr, isBinder, meaningExpr_shadowed b]
  | .index b is => by
    have hbase := meaningExpr_shadowed b
    have hindices := meaningExprs_shadowed is
    cases b <;> simp_all [meaningExpr, codegenExpr]
  | .slice b lo hi => by
    simp [meaningExpr, codegenExpr, meaningExpr_shadowed b, meaningExpr_shadowed lo,
      meaningExpr_shadowed hi]
  | .binary _ l r => by
    simp [meaningExpr, codegenExpr, meaningExpr_shadowed l, meaningExpr_shadowed r]
  | .unary _ e => by simp [meaningExpr, codegenExpr, meaningExpr_shadowed e]
  | .call c args => by
    simp [meaningExpr, codegenExpr, meaningExpr_shadowed c, meaningExprs_shadowed args]
  | .entityLit _ _ vs => by simp [meaningExpr, codegenExpr, meaningExprs_shadowed vs]
  | .arrayLiteral es => by simp [meaningExpr, codegenExpr, meaningExprs_shadowed es]
  | .name _ => by simp [meaningExpr, codegenExpr]
  | .null | .literal _ | .string _ => rfl

theorem meaningExprs_shadowed : ∀ es : List (Expr Name),
    meaningExprs F self locals true es = codegenExprs F locals es
  | [] => rfl
  | e :: es => by
    simp [meaningExprs, codegenExprs, meaningExpr_shadowed e, meaningExprs_shadowed es]

end

theorem uses_selfChain : ∀ {e : Expr Name}, isSelfChain self e = true → uses self toSelf e ≠ []
  | .name n, h => by simpa [isSelfChain, uses] using h
  | .field b f, h => by
    have hb : isSelfChain self b = true := by
      simp only [isSelfChain, Bool.and_eq_true] at h
      exact h.1.1
    rw [uses]
    split
    · exact List.cons_ne_nil _ _
    · split
      · exact List.cons_ne_nil _ _
      · exact uses_selfChain hb

theorem codegenExpr_index (b : Expr Name) (is : List (Expr Name)) (hb : ∀ n, b ≠ .name n) :
    codegenExpr F locals (.index b is) =
      .index (codegenExpr F locals b) (codegenExprs F locals is) := by
  cases b with
  | name n => exact absurd rfl (hb n)
  | _ => rfl

theorem meaningExpr_index (b : Expr Name) (is : List (Expr Name)) (hb : ∀ n, b ≠ .name n) :
    meaningExpr F self locals shadowed (.index b is) =
      .index (meaningExpr F self locals shadowed b) (meaningExprs F self locals shadowed is) := by
  cases b with
  | name n => exact absurd rfl (hb n)
  | _ => rfl

/-- The uses in the base of an element, but for a column of the binder. -/
theorem uses_index (b : Expr Name) (is : List (Expr Name)) (hb : ∀ f, b ≠ .field (.name self) f) :
    uses self toSelf (.index b is) = uses self toSelf b ++ usesAll self toSelf is := by
  cases b with
  | field b f =>
    cases b with
    | name n =>
      have hn : n ≠ self := fun he => hb f (he ▸ rfl)
      simp [uses, isName, isSelfChain, hn]
    | _ => rfl
  | _ => rfl

theorem index_cases (self : Name) (b : Expr Name) : (∃ n, b = .name n) ∨
    (∃ f, b = .field (.name self) f) ∨
      (∀ n, b ≠ .name n) ∧ ∀ f, b ≠ .field (.name self) f := by
  by_cases hname : ∃ n, b = .name n
  · exact .inl hname
  · by_cases hfield : ∃ f, b = .field (.name self) f
    · exact .inr (.inl hfield)
    · exact .inr (.inr ⟨fun n he => hname ⟨n, he⟩, fun f he => hfield ⟨f, he⟩⟩)

mutual

/-- An expression that is not rewritten is read as it means if it has no use of the binder. -/
theorem meaningExpr_eq_codegen_iff : ∀ e : Expr Name,
    codegenExpr F locals e = meaningExpr F self locals false e ↔ uses self toSelf e = []
  | .name n => by
    by_cases hn : n = self
    · simp [codegenExpr, meaningExpr, uses, hn, readName_ne_binder]
    · simp [codegenExpr, meaningExpr, uses, hn]
  | .field b f => by
    have ih := meaningExpr_eq_codegen_iff b
    by_cases hname : isName self b = true
    · simp [codegenExpr, meaningExpr, uses, isBinder, hname]
    · by_cases hchain : isSelfChain self b = true
      · have hb : uses self toSelf b ≠ [] := uses_selfChain hchain
        cases toSelf <;> simp_all [codegenExpr, meaningExpr, uses, isBinder]
      · simp [codegenExpr, meaningExpr, uses, isBinder, hname, hchain, ih]
  | .index b is => by
    have ih := meaningExpr_eq_codegen_iff b
    have hindices := meaningExprs_eq_codegen_iff is
    obtain ⟨n, rfl⟩ | ⟨f, rfl⟩ | ⟨hname, hfield⟩ := index_cases self b
    · by_cases hn : n = self
      · simp [codegenExpr, meaningExpr, uses, hn, readBase_ne_binder]
      · simp [codegenExpr, meaningExpr, uses, hn, hindices]
    · simp [codegenExpr, meaningExpr, uses, isBinder, isName]
    · rw [codegenExpr_index b is hname, meaningExpr_index b is hname, Expr.index.injEq, ih, hindices,
        uses_index b is hfield, List.append_eq_nil_iff]
  | .slice b lo hi => by
    simp [codegenExpr, meaningExpr, uses, meaningExpr_eq_codegen_iff b,
      meaningExpr_eq_codegen_iff lo, meaningExpr_eq_codegen_iff hi]
  | .binary _ l r => by
    simp [codegenExpr, meaningExpr, uses, meaningExpr_eq_codegen_iff l,
      meaningExpr_eq_codegen_iff r]
  | .unary _ e => by simp [codegenExpr, meaningExpr, uses, meaningExpr_eq_codegen_iff e]
  | .call c args => by
    simp [codegenExpr, meaningExpr, uses, meaningExpr_eq_codegen_iff c,
      meaningExprs_eq_codegen_iff args]
  | .entityLit _ _ vs => by
    simp [codegenExpr, meaningExpr, uses, meaningExprs_eq_codegen_iff vs]
  | .arrayLiteral es => by simp [codegenExpr, meaningExpr, uses, meaningExprs_eq_codegen_iff es]
  | .null | .literal _ | .string _ => by simp [codegenExpr, meaningExpr, uses]

theorem meaningExprs_eq_codegen_iff : ∀ es : List (Expr Name),
    codegenExprs F locals es = meaningExprs F self locals false es ↔ usesAll self toSelf es = []
  | [] => by simp [codegenExprs, meaningExprs, usesAll]
  | e :: es => by
    simp [codegenExprs, meaningExprs, usesAll, meaningExpr_eq_codegen_iff e,
      meaningExprs_eq_codegen_iff es]

end

/-- A slice is left as it is. -/
theorem slice_iff (b lo hi : Expr Name) :
    codegenExpr F locals (.slice b lo hi) = meaningExpr F self locals shadowed (.slice b lo hi) ↔
      ∀ u ∈ uses self toSelf (.slice b lo hi), u.Fine F locals shadowed toSelf := by
  cases shadowed with
  | true =>
    rw [meaningExpr_shadowed]
    refine iff_of_true rfl fun u hu => ?_
    obtain ⟨v, -, rfl⟩ := List.mem_map.mp hu
    rfl
  | false =>
    have hread : codegenExpr F locals (.slice b lo hi) =
        meaningExpr F self locals false (.slice b lo hi) ↔ uses self toSelf (.slice b lo hi) = [] :=
      meaningExpr_eq_codegen_iff (.slice b lo hi)
    rw [hread, List.eq_nil_iff_forall_not_mem]
    refine forall₂_congr fun u hu => ?_
    obtain ⟨v, -, rfl⟩ := List.mem_map.mp hu
    simp [Use.Fine]

theorem rewriteExpr_name {b : Expr Name} {n : Name} (hb : ∀ m, b ≠ .name m)
    (h : rewriteExpr self toSelf b = .name n) : ∃ b' f, b = .field b' f ∧
      isName self (rewriteExpr self toSelf b') = true := by
  cases b with
  | field b' f =>
    refine ⟨b', f, rfl, ?_⟩
    rw [rewriteExpr] at h
    split at h
    · assumption
    · cases h
  | name m => exact absurd rfl (hb m)
  | _ => simp [rewriteExpr] at h

/-- The base of an element that is not the binder's column is read as any expression. -/
theorem base_iff {b : Expr Name} (is js : List (Expr Name))
    (hname : ∀ n, b ≠ .name n) (hfield : ∀ f, b ≠ .field (.name self) f) :
    codegenExpr F locals (.index (rewriteExpr self toSelf b) is) =
        meaningExpr F self locals shadowed (.index b js) ↔
      codegenExpr F locals (rewriteExpr self toSelf b) = meaningExpr F self locals shadowed b ∧
        codegenExprs F locals is = meaningExprs F self locals shadowed js := by
  rw [meaningExpr_index b js hname]
  by_cases hrewritten : ∃ n, rewriteExpr self toSelf b = .name n
  · -- a component of the column that has the binder's name
    obtain ⟨n, hn⟩ := hrewritten
    obtain ⟨b', f, rfl, -⟩ := rewriteExpr_name hname hn
    have hb : isBinder self shadowed b' = false := by
      rw [isBinder, Bool.and_eq_false_iff]
      exact .inl (Bool.eq_false_iff.mpr fun he => hfield f (isName_iff.mp he ▸ rfl))
    rw [hn]
    simp [codegenExpr, meaningExpr, hb]
  · rw [codegenExpr_index _ _ fun n hn => hrewritten ⟨n, hn⟩, Expr.index.injEq]

mutual

/-- An expression is read as it means, rewritten, if each use of the binder is fine. -/
theorem rewriteExpr_iff (hself : IsIdent self) : ∀ e : Expr Name,
    (∀ u ∈ uses self toSelf e, u.Queried F) →
    (codegenExpr F locals (rewriteExpr self toSelf e) = meaningExpr F self locals shadowed e ↔
      ∀ u ∈ uses self toSelf e, u.Fine F locals shadowed toSelf)
  | .name n, _ => by
    by_cases hn : n = self
    · cases shadowed <;>
        simp [rewriteExpr, codegenExpr, meaningExpr, uses, hn, Use.Fine, readName_ne_binder]
    · simp [rewriteExpr, codegenExpr, meaningExpr, uses, hn]
  | .field b f, hq => by
    have hrewritten : isName self (rewriteExpr self toSelf b) =
        (isName self b || (!toSelf && isSelfChain self b)) := isName_rewrite hself b
    by_cases hname : isName self b = true
    · have huses : uses self toSelf (.field b f) = [.column f] := by simp [uses, hname]
      rw [huses] at hq ⊢
      have hcolumn := hq _ (List.mem_singleton_self _) f rfl
      have hcollapse : isName self (rewriteExpr self toSelf b) = true := by
        rw [hrewritten, hname, Bool.true_or]
      rw [rewriteExpr, if_pos hcollapse]
      cases shadowed with
      | true => simp [codegenExpr, meaningExpr, isBinder, Use.Fine]
      | false =>
        simp [codegenExpr, meaningExpr, isBinder, hname, Use.Fine, readName_collapsed_iff hcolumn]
    · by_cases hchain : (!toSelf && isSelfChain self b) = true
      · have hcollapse : isName self (rewriteExpr self toSelf b) = true := by
          rw [hrewritten, hchain, Bool.or_true]
        rw [rewriteExpr, if_pos hcollapse]
        simp [codegenExpr, meaningExpr, uses, isBinder, hname, hchain, Use.Fine]
      · have hkept : ¬isName self (rewriteExpr self toSelf b) = true := by
          rw [hrewritten, Bool.or_eq_true]
          exact not_or.mpr ⟨hname, hchain⟩
        have huses : uses self toSelf (.field b f) = uses self toSelf b := by
          rw [uses, if_neg hname, if_neg hchain]
        rw [huses] at hq ⊢
        rw [rewriteExpr, if_neg hkept, ← rewriteExpr_iff hself b hq]
        simp [codegenExpr, meaningExpr, isBinder, hname]
  | .index b is, hq => by
    have hindices := rewriteExprs_iff hself is
    obtain ⟨n, rfl⟩ | ⟨f, rfl⟩ | ⟨hname, hfield⟩ := index_cases self b
    · have hfield : ∀ f, Expr.name n ≠ .field (.name self) f := nofun
      rw [uses_index _ is hfield, List.forall_mem_append] at hq ⊢
      rw [rewriteExpr]
      by_cases hn : n = self
      · cases shadowed <;>
          simp [rewriteExpr, codegenExpr, meaningExpr, uses, hn, Use.Fine, readBase_ne_binder,
            hindices hq.2]
      · simp [rewriteExpr, codegenExpr, meaningExpr, uses, hn, hindices hq.2]
    · have huses : uses self toSelf (.index (.field (.name self) f) is) =
          .element f :: usesAll self toSelf is := by simp [uses]
      rw [huses, List.forall_mem_cons] at hq ⊢
      have hcolumn := hq.1 f rfl
      cases shadowed with
      | true =>
        simp [rewriteExpr, codegenExpr, meaningExpr, isName, isBinder, Use.Fine]
      | false =>
        simp [rewriteExpr, codegenExpr, meaningExpr, isName, isBinder, Use.Fine,
          readBase_collapsed_iff hcolumn, hindices hq.2]
    · rw [uses_index b is hfield, List.forall_mem_append] at hq ⊢
      rw [rewriteExpr, base_iff _ _ hname hfield, rewriteExpr_iff hself b hq.1,
        hindices hq.2]
  | .slice b lo hi, _ => slice_iff b lo hi
  | .binary op l r, hq => by
    rw [uses, List.forall_mem_append] at hq ⊢
    simp [rewriteExpr, codegenExpr, meaningExpr, rewriteExpr_iff hself l hq.1,
      rewriteExpr_iff hself r hq.2]
  | .unary op e, hq => by
    rw [uses] at hq ⊢
    simp [rewriteExpr, codegenExpr, meaningExpr, rewriteExpr_iff hself e hq]
  | .call c args, hq => by
    rw [uses, List.forall_mem_append] at hq ⊢
    simp [rewriteExpr, codegenExpr, meaningExpr, rewriteExpr_iff hself c hq.1,
      rewriteExprs_iff hself args hq.2]
  | .entityLit _ _ vs, hq => by
    rw [uses] at hq ⊢
    simp [rewriteExpr, codegenExpr, meaningExpr, rewriteExprs_iff hself vs hq]
  | .arrayLiteral es, hq => by
    rw [uses] at hq ⊢
    simp [rewriteExpr, codegenExpr, meaningExpr, rewriteExprs_iff hself es hq]
  | .null, _ | .literal _, _ | .string _, _ => by
    simp [rewriteExpr, codegenExpr, meaningExpr, uses]

theorem rewriteExprs_iff (hself : IsIdent self) : ∀ es : List (Expr Name),
    (∀ u ∈ usesAll self toSelf es, u.Queried F) →
    (codegenExprs F locals (rewriteExprs self toSelf es) =
        meaningExprs F self locals shadowed es ↔
      ∀ u ∈ usesAll self toSelf es, u.Fine F locals shadowed toSelf)
  | [], _ => by simp [rewriteExprs, codegenExprs, meaningExprs, usesAll]
  | e :: es, hq => by
    rw [usesAll, List.forall_mem_append] at hq ⊢
    simp [rewriteExprs, codegenExprs, meaningExprs, rewriteExpr_iff hself e hq.1,
      rewriteExprs_iff hself es hq.2]

end

/-- A target is read as it means, rewritten to bare names. -/
theorem rewriteTarget_iff (hself : IsIdent self) (t : Expr Name)
    (hq : ∀ u ∈ targetUses self t, u.Queried F) :
    codegenTarget F locals (rewriteExpr self false t) = meaningTarget F self locals shadowed t ↔
      ∀ u ∈ targetUses self t, u.Fine F locals shadowed false := by
  have hplain : (∀ b is, t ≠ .index b is) → (codegenTarget F locals (rewriteExpr self false t) =
      meaningTarget F self locals shadowed t ↔
        ∀ u ∈ targetUses self t, u.Fine F locals shadowed false) := by
    intro ht
    have huses : targetUses self t = uses self false t := by
      cases t with
      | index b is => exact absurd rfl (ht b is)
      | _ => rfl
    have hcodegen : codegenTarget F locals (rewriteExpr self false t) =
        codegenExpr F locals (rewriteExpr self false t) := by
      cases t with
      | index b is => exact absurd rfl (ht b is)
      | field b f =>
        rw [rewriteExpr]
        split <;> rfl
      | _ => rfl
    have hmeaning : meaningTarget F self locals shadowed t =
        meaningExpr F self locals shadowed t := by
      cases t with
      | index b is => exact absurd rfl (ht b is)
      | _ => rfl
    rw [huses] at hq ⊢
    rw [hcodegen, hmeaning, rewriteExpr_iff hself t hq]
  cases t with
  | index b is =>
    rw [targetUses, List.forall_mem_append] at hq ⊢
    simp [rewriteExpr, codegenTarget, meaningTarget, rewriteExpr_iff hself b hq.1,
      rewriteExprs_iff hself is hq.2]
  | _ => exact hplain nofun

/-! ## Statements -/

mutual

/-- The rewrite declares what the body declares. -/
theorem after_rewrite (locals : List Name) : ∀ s : Stmt Name,
    after locals (rewriteStmt self s) = after locals s
  | .ite _ thn els => by
    rw [rewriteStmt, after, after, afterAll_rewrite locals thn, afterAll_rewrite _ els]
  | .block ss => by rw [rewriteStmt, after, after, afterAll_rewrite locals ss]
  | .null | .bind _ _ | .assign _ _ _ | .forS _ _ _ _ | .breakS | .continueS | .expr _ | .ret _
  | .other _ => rfl

theorem afterAll_rewrite (locals : List Name) : ∀ ss : List (Stmt Name),
    afterAll locals (rewriteStmts self ss) = afterAll locals ss
  | [] => rfl
  | s :: ss => by
    rw [rewriteStmts, afterAll, afterAll, after_rewrite locals s, afterAll_rewrite _ ss]

end

theorem forall_sites {us : List Use} {locals : List Name} {shadowed toSelf : Bool}
    {P : Site → Prop} : (∀ s ∈ us.map (⟨locals, shadowed, toSelf, ·⟩), P s) ↔
      ∀ u ∈ us, P ⟨locals, shadowed, toSelf, u⟩ := List.forall_mem_map

def Site.Queried (F : Fan) (s : Site) : Prop := s.use.Queried F

mutual

/-- A statement is read as it means, rewritten, if each use of the binder is fine. -/
theorem rewriteStmt_iff (hself : IsIdent self) : ∀ (locals : List Name) (shadowed : Bool)
    (s : Stmt Name), (∀ x ∈ sites self locals shadowed s, x.Queried F) →
    (codegenStmt F locals (rewriteStmt self s) = meaningStmt F self locals shadowed s ↔
      ∀ x ∈ sites self locals shadowed s, x.Fine F)
  | locals, shadowed, .bind n v, hq => by
    rw [sites, forall_sites] at hq ⊢
    rw [rewriteStmt, codegenStmt, meaningStmt, Stmt.bind.injEq, rewriteExpr_iff hself v hq]
    exact and_iff_right rfl
  | locals, shadowed, .assign t op v, hq => by
    rw [sites, List.forall_mem_append, forall_sites, forall_sites] at hq ⊢
    rw [rewriteStmt, codegenStmt, meaningStmt, Stmt.assign.injEq,
      rewriteTarget_iff hself t hq.1, rewriteExpr_iff hself v hq.2]
    exact and_congr_right fun _ => and_iff_right rfl
  | locals, shadowed, .forS init cond incr body, hq => by
    rw [sites, List.forall_mem_append, List.forall_mem_append, List.forall_mem_append,
      forall_sites] at hq ⊢
    obtain ⟨⟨⟨hinit, hcond⟩, hincr⟩, hbody⟩ := hq
    rw [rewriteStmt, codegenStmt, meaningStmt, Stmt.forS.injEq, after_rewrite, afterAll_rewrite,
      rewriteStmt_iff hself _ _ init hinit, rewriteExpr_iff hself cond hcond,
      rewriteStmt_iff hself _ _ incr hincr, rewriteStmts_iff hself _ _ body hbody]
    exact ⟨fun ⟨a, b, c, d⟩ => ⟨⟨⟨a, b⟩, c⟩, d⟩, fun ⟨⟨⟨a, b⟩, c⟩, d⟩ => ⟨a, b, c, d⟩⟩
  | locals, shadowed, .ite cond thn els, hq => by
    rw [sites, List.forall_mem_append, List.forall_mem_append, forall_sites] at hq ⊢
    obtain ⟨⟨hcond, hthn⟩, hels⟩ := hq
    rw [rewriteStmt, codegenStmt, meaningStmt, Stmt.ite.injEq, afterAll_rewrite,
      rewriteExpr_iff hself cond hcond, rewriteStmts_iff hself _ _ thn hthn,
      rewriteStmts_iff hself _ _ els hels]
    exact and_assoc.symm
  | locals, shadowed, .expr e, hq => by
    rw [sites, forall_sites] at hq ⊢
    rw [rewriteStmt, codegenStmt, meaningStmt, Stmt.expr.injEq, rewriteExpr_iff hself e hq]
    rfl
  | locals, shadowed, .ret vs, hq => by
    rw [sites, forall_sites] at hq ⊢
    rw [rewriteStmt, codegenStmt, meaningStmt, Stmt.ret.injEq, rewriteExprs_iff hself vs hq]
    rfl
  | locals, shadowed, .block ss, hq => by
    rw [sites] at hq ⊢
    rw [rewriteStmt, codegenStmt, meaningStmt, Stmt.block.injEq, rewriteStmts_iff hself _ _ ss hq]
  | _, _, .null, _ | _, _, .breakS, _ | _, _, .continueS, _ | _, _, .other _, _ => by
    simp [rewriteStmt, codegenStmt, meaningStmt, sites]

theorem rewriteStmts_iff (hself : IsIdent self) : ∀ (locals : List Name) (shadowed : Bool)
    (ss : List (Stmt Name)), (∀ x ∈ sitesAll self locals shadowed ss, x.Queried F) →
    (codegenStmts F locals (rewriteStmts self ss) = meaningStmts F self locals shadowed ss ↔
      ∀ x ∈ sitesAll self locals shadowed ss, x.Fine F)
  | _, _, [], _ => by simp [rewriteStmts, codegenStmts, meaningStmts, sitesAll]
  | locals, shadowed, s :: ss, hq => by
    rw [sitesAll, List.forall_mem_append] at hq ⊢
    rw [rewriteStmts, codegenStmts, meaningStmts, List.cons.injEq, after_rewrite,
      rewriteStmt_iff hself _ _ s hq.1, rewriteStmts_iff hself _ _ ss hq.2]

end

/-! ## The theorem -/

/-- The body of a map with a self-binder is read as it means if and only if each use of the binder's
name is fine. -/
theorem selfBind_eliminated_iff (F : Fan) (self : Name) (body : List (Stmt Name))
    (h : Accepted F self body) :
    codegenStmts F [] (rewriteStmts self body) = meaningStmts F self [] false body ↔
      ∀ s ∈ sitesAll self [] false body, s.Fine F :=
  rewriteStmts_iff h.ident [] false body h.queried

/-- `map (query { v, o } as me)(o)` in a system, over a pool of any size. -/
def flock : Fan where
  nested := true
  columns := [⟨"o".toList, "Flock".toList, false, false, some .fan⟩,
    ⟨"v".toList, "Flock".toList, false, false, some .fan⟩]
  outer := [.column ⟨"v".toList, "Flock".toList, false, false, none⟩, .localVar "buf".toList]
  pinned := by decide
  idents := by
    unfold IsIdent
    decide

def me (f : String) : Expr Name := .field (.name "me".toList) f.toList

/-- `me.o = reduce(+, Flock.v - me.v);`. -/
def selfJoin : List (Stmt Name) :=
  [.assign (me "o") .none (.call (.name "reduce".toList) [.literal "+".toList,
    .binary .sub (.field (.name "Flock".toList) "v".toList) (me "v")])]

theorem accepted_selfJoin : Accepted flock "me".toList selfJoin where
  ident := ⟨by decide, by decide⟩
  transforms := rfl
  queried := by
    have hsites : sitesAll "me".toList [] false selfJoin =
        [⟨[], false, false, .column "o".toList⟩, ⟨[], false, true, .column "v".toList⟩] := rfl
    rw [hsites]
    intro s hs f hf
    rcases List.mem_cons.mp hs with rfl | hs
    · cases hf
      exact .inr rfl
    · obtain rfl := List.mem_singleton.mp hs
      cases hf
      exact .inr rfl

theorem selfBind_eliminated_selfJoin :
    codegenStmts flock [] (rewriteStmts "me".toList selfJoin) =
      meaningStmts flock "me".toList [] false selfJoin := by
  refine (selfBind_eliminated_iff flock "me".toList selfJoin accepted_selfJoin).mpr fun s hs => ?_
  have hsites : sitesAll "me".toList [] false selfJoin =
      [⟨[], false, false, .column "o".toList⟩, ⟨[], false, true, .column "v".toList⟩] := rfl
  rw [hsites] at hs
  rcases List.mem_cons.mp hs with rfl | hs
  · exact ⟨rfl, .inr (List.not_mem_nil)⟩
  · obtain rfl := List.mem_singleton.mp hs
    exact ⟨rfl, .inr (List.not_mem_nil)⟩

/-- `me.o = sum(buf[0:me.v]);`. -/
def slicedBound : List (Stmt Name) :=
  [.assign (me "o") .none (.call (.name "sum".toList)
    [.slice (.name "buf".toList) (.literal "0".toList) (me "v")])]

theorem not_selfBind_eliminated :
    ¬ ∀ (F : Fan) (self : Name) (body : List (Stmt Name)), Accepted F self body →
      codegenStmts F [] (rewriteStmts self body) = meaningStmts F self [] false body := by
  intro h
  have hsites : sitesAll "me".toList [] false slicedBound =
      [⟨[], false, false, .column "o".toList⟩,
        ⟨[], false, true, .sliced (.column "v".toList)⟩] := rfl
  have hqueried : ∀ s ∈ sitesAll "me".toList [] false slicedBound, s.Queried flock := by
    rw [hsites]
    intro s hs f hf
    rcases List.mem_cons.mp hs with rfl | hs
    · cases hf
      exact .inr rfl
    · obtain rfl := List.mem_singleton.mp hs
      cases hf
      exact .inr rfl
  have hident : IsIdent "me".toList := ⟨by decide, by decide⟩
  have hread := h flock "me".toList slicedBound ⟨hident, rfl, hqueried⟩
  have hfine := (rewriteStmts_iff hident [] false slicedBound hqueried).mp hread
  rw [hsites] at hfine
  have hshadowed : false = true := hfine _ (List.mem_cons_of_mem _ (List.mem_singleton_self _))
  cases hshadowed

end Arche.Lower.SelfBinder
