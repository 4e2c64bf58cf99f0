import Arche.Lib.Path

/-!
# Moves: the walk of semantic.c and the paths of a body

`analyze_expression` and `analyze_statement` keep one flag per variable,
`is_consumed`, and set it while they walk the tree once, in source order. This
module embeds that walk (`analyzeExpr`, `analyzeStmt`) and, next to it, the paths
a body can take (`Eval`, `Exec`): which variables a path reads and moves, and in
which order.

* Of the diagnostics only those that depend on the flags are kept, so a body the
  front end accepts is accepted here.
* What the type checker finds out is part of the tree: the class of a declared
  variable and the `own` parameters of a resolved callee.
* The scopes of the context are one list, newest variable first, which is the
  order in which `find_variable` searches. Leaving a scope cuts the list back.
-/

namespace Arche.Semantic

open Arche.Lib

/-! ## The tree -/

/-- What `type_is_byref_aggregate` and `var_is_opaque` say of a type. -/
inductive VarClass
  | copy
  | aggregate
  | opaqueType
deriving DecidableEq, Repr

/-- A declared variable: the fields of `VariableInfo` the walk reads, without the flag.
`hasDrop`: its type has a registered `@drop` destructor. -/
structure Decl where
  name : String
  cls : VarClass
  hasDrop : Bool := false
  isParam : Bool := false
  isOwn : Bool := false
deriving DecidableEq, Repr

inductive BinaryOp
  | fmap
  | logical
  | other
deriving DecidableEq, Repr

inductive UnaryOp
  | move
  | copy
  | other
deriving DecidableEq, Repr

/-- Expressions. `field x` is a field chain on the name `x`, `fieldOf e` one on a computed value;
`index` stands for indexing and slicing, its base a name, a field chain or a computed value.
`builtin` is a type conversion, `select`, `sqrt`, `seq`, `zip` or `pure`; `collective` is `reduce`,
`scan` or `sort` on its column. In `call f own args` the `j`-th parameter of `f` is `own` when
`own` has `true` there (no signature, or a group: `[]`). `hole` is the argument `_`. -/
inductive Expr
  | literal
  | arrayLit (es : List Expr)
  | tupleLit (es : List Expr)
  | paren (e : Expr)
  | name (x : String)
  | field (x : String)
  | fieldOf (e : Expr)
  | index (base : Expr) (ix : List Expr)
  | binary (op : BinaryOp) (l r : Expr)
  | unary (op : UnaryOp) (e : Expr)
  | builtin (args : List Expr)
  | ifS (c t e : Expr)
  | whenS (c b : Expr)
  | collective (col : Expr)
  | call (f : String) (own : List Bool) (args : List Expr)
  | entity (vals : List Expr)
  | hole

/-- An out-target of a multi-bind or a proc call: a new variable or an existing place. -/
inductive Target
  | new (d : Decl)
  | place (x : String)
deriving DecidableEq, Repr

/-- Statements. The clauses `init` and `incr` of a `for` hold at most one statement, `forever` is
`for` without a header. `fan` is an inline `each` or `map` with the columns it binds, or an
`#each_field` with its one binding. -/
inductive Stmt
  | bind (d : Decl) (value : Option Expr)
  | assign (target value : Expr)
  | forC (init : List Stmt) (cond : Option Expr) (incr body : List Stmt)
  | forever (body : List Stmt)
  | ite (cond : Expr) (thn els : List Stmt)
  | run
  | expr (e : Expr)
  | fan (binds : List Decl) (body : List Stmt)
  | ret (es : List Expr)
  | brk
  | cont
  | multiBind (targets : List Target) (value : Option Expr)
  | block (body : List Stmt)
  | matchOn (scrut : Option Expr) (arms : List (List Stmt))

def Expr.bareName? : Expr → Option String
  | .name x => some x
  | _ => none

/-- The name an expression is, under any parentheses: lowering drops these. -/
def Expr.parenName? : Expr → Option String
  | .name x => some x
  | .paren e => e.parenName?
  | _ => none

/-- The variable a target is stored through. -/
def Expr.root? : Expr → Option String
  | .name x | .field x => some x
  | .paren e | .fieldOf e => e.root?
  | .index b _ => b.root?
  | _ => none

/-- The bare names handed to `own` parameters, in the order of the parameters. -/
def ownNames : List Bool → List Expr → List String
  | true :: own, a :: args => a.bareName?.toList ++ ownNames own args
  | false :: own, _ :: args => ownNames own args
  | _, _ => []

/-- The bare names an `insert` hands over: its further arguments, then the values of the entity
literal. -/
def insertNames : List Expr → List String
  | .entity vals :: args => args.filterMap Expr.bareName? ++ vals.filterMap Expr.bareName?
  | _ :: args => args.filterMap Expr.bareName?
  | [] => []

/-! ## Variables and their flag -/

/-- A variable with its flag: `is_consumed` in the walk, "was moved on this path" on a path. -/
structure Var where
  decl : Decl
  consumed : Bool
deriving DecidableEq, Repr

namespace Decl

def moveOnly (d : Decl) : Bool := d.cls != .copy

/-- A read-only borrow: it cannot be moved out of. -/
def borrowed (d : Decl) : Bool := d.isParam && !d.isOwn && d.cls == .aggregate

end Decl

abbrev Vars := List Var

namespace Vars

/-- `find_variable`. -/
def find (x : String) : Vars → Option Var
  | [] => none
  | v :: vs => if v.decl.name == x then some v else find x vs

/-- Sets the flag of the variable `find x` finds. -/
def consume (x : String) : Vars → Vars
  | [] => []
  | v :: vs => if v.decl.name == x then { v with consumed := true } :: vs else v :: consume x vs

/-- `add_variable`. -/
def declare (d : Decl) (vs : Vars) : Vars := ⟨d, false⟩ :: vs

def declareAll (ds : List Decl) (vs : Vars) : Vars := ds.foldl (fun vs d => declare d vs) vs

/-- The oldest `n` variables. -/
def cut (n : Nat) (vs : Vars) : Vars := vs.drop (vs.length - n)

/-- The flag of `x` is set. -/
def isConsumed (x : String) (vs : Vars) : Bool := (vs.find x).any Var.consumed

end Vars

/-! ## The walk -/

inductive Diag
  | useAfterConsume (x : String)
  | cannotMoveBorrowed (x : String)
  | assignAfterMove (x : String)
  | dropConditional (x : String)
  | opaqueNotConsumed (x : String)
deriving DecidableEq, Repr

structure Ctx where
  vars : Vars
  diags : List Diag
deriving DecidableEq, Repr

namespace Ctx

def emit (c : Ctx) (d : Diag) : Ctx := { c with diags := c.diags ++ [d] }

def consume (c : Ctx) (x : String) : Ctx := { c with vars := c.vars.consume x }

/-- A name in a checked place. -/
def checkUse (c : Ctx) (x : String) : Ctx :=
  if c.vars.isConsumed x then c.emit (.useAfterConsume x) else c

/-- `move x`: the flag is set also when the move is refused. -/
def moveOut (c : Ctx) (x : String) : Ctx :=
  match c.vars.find x with
  | none => c
  | some v => (if v.decl.borrowed then c.emit (.cannotMoveBorrowed x) else c).consume x

/-- `implicit_move_consume` on the name `x`. It does not look at the flag. -/
def implicitMove (c : Ctx) (x : String) : Ctx :=
  match c.vars.find x with
  | none => c
  | some v =>
    if !v.decl.moveOnly then c
    else if v.decl.borrowed then c.emit (.cannotMoveBorrowed x)
    else c.consume x

/-- An opaque variable that is returned or inserted. -/
def consumeOpaque (c : Ctx) (x : String) : Ctx :=
  match c.vars.find x with
  | none => c
  | some v => if v.decl.cls == .opaqueType then c.consume x else c

/-- The check of an assignment to the name `x`, after its value. -/
def checkAssign (c : Ctx) (x : String) : Ctx :=
  if c.vars.isConsumed x then c.emit (.assignAfterMove x) else c

def declare (c : Ctx) (d : Decl) : Ctx := { c with vars := c.vars.declare d }

/-- The must-consume rule of `pop_scope`. -/
def mustConsume (v : Var) : Option Diag :=
  if v.decl.cls == .opaqueType && !v.decl.isParam && !v.consumed && !v.decl.hasDrop then
    some (.opaqueNotConsumed v.decl.name)
  else none

/-- `pop_scope`, back to the oldest `n` variables. -/
def popScope (c : Ctx) (n : Nat) : Ctx :=
  { vars := c.vars.cut n
    diags := c.diags ++ (c.vars.take (c.vars.length - n)).filterMap mustConsume }

def restoreVar (b v : Var) : Var :=
  if v.decl.cls == .opaqueType then { v with consumed := b.consumed } else v

/-- Before the else branch: opaque variables get back the flag they had before the `if`. -/
def restoreOpaque (before : Vars) (c : Ctx) : Ctx :=
  { c with vars := List.zipWith restoreVar before c.vars }

/-- One opaque variable after both branches. -/
def joinVar (b t v : Var) : Var :=
  if v.decl.cls == .opaqueType && !b.consumed then
    { v with consumed := if t.consumed != v.consumed then true else t.consumed }
  else v

def joinDiag (b t v : Var) : Option Diag :=
  if v.decl.cls == .opaqueType && !b.consumed && t.consumed != v.consumed then
    some (.dropConditional v.decl.name)
  else none

def joinVars : Vars → Vars → Vars → Vars
  | b :: bs, t :: ts, v :: vs => joinVar b t v :: joinVars bs ts vs
  | _, _, _ => []

def joinDiags : Vars → Vars → Vars → List Diag
  | b :: bs, t :: ts, v :: vs => (joinDiag b t v).toList ++ joinDiags bs ts vs
  | _, _, _ => []

/-- After the `if`: an opaque variable must be consumed in both branches or in none. The other
variables keep the flag of whichever branch set it. -/
def join (before thn : Vars) (c : Ctx) : Ctx :=
  { vars := joinVars before thn c.vars
    diags := c.diags ++ joinDiags before thn c.vars }

end Ctx

/-- What a unary operator does after its operand: only `move` of a bare name moves. -/
def moveOperand (c : Ctx) : UnaryOp → Expr → Ctx
  | .move, .name x => c.moveOut x
  | _, _ => c

mutual

/-- `analyze_expression`. The elements of an array or tuple literal and the base of a field chain
are not looked at; `insert` has its first argument looked at twice. -/
def analyzeExpr (c : Ctx) : Expr → Ctx
  | .literal | .hole => c
  | .arrayLit _ | .tupleLit _ => c
  | .paren e => analyzeExpr c e
  | .name x => c.checkUse x
  | .field _ => c
  | .fieldOf e => analyzeExpr c e
  | .index b ix => analyzeExprs (analyzeExpr c b) ix
  | .binary op l r =>
    if op = .fmap then analyzeExpr c l else analyzeExpr (analyzeExpr c l) r
  | .unary op e => moveOperand (analyzeExpr c e) op e
  | .builtin args => analyzeExprs c args
  | .ifS a b d => analyzeExpr (analyzeExpr (analyzeExpr c a) b) d
  | .whenS a b => analyzeExpr (analyzeExpr c a) b
  | .collective e => analyzeExpr c e
  | .call f own args =>
    let c₁ := analyzeExprs (c.checkUse f) args
    let c₂ := if f == "insert" then (insertNames args).foldl Ctx.consumeOpaque (analyzeFirst c₁ args)
      else c₁
    (ownNames own args).foldl Ctx.implicitMove c₂
  | .entity vals => analyzeExprs c vals

def analyzeExprs (c : Ctx) : List Expr → Ctx
  | [] => c
  | e :: es => analyzeExprs (analyzeExpr c e) es

def analyzeFirst (c : Ctx) : List Expr → Ctx
  | [] => c
  | e :: _ => analyzeExpr c e

end

def analyzeOpt (c : Ctx) : Option Expr → Ctx
  | none => c
  | some e => analyzeExpr c e

/-- The implicit move of a bare name on the right of a binding or an assignment. -/
def moveValue (c : Ctx) (e : Expr) : Ctx := e.bareName?.elim c c.implicitMove

def analyzeValue (c : Ctx) : Option Expr → Ctx
  | none => c
  | some e => moveValue (analyzeExpr c e) e

/-- The values of a `return`, one after the other. -/
def analyzeReturn (c : Ctx) : List Expr → Ctx
  | [] => c
  | e :: es => analyzeReturn (e.bareName?.elim (analyzeExpr c e) (analyzeExpr c e).consumeOpaque) es

def analyzeTarget (c : Ctx) : Target → Ctx
  | .new d => if d.name == "_" then c else c.declare d
  | .place x => c.checkAssign x

mutual

/-- `analyze_statement`. The increment of a `for` is looked at before its body, and every body
once. -/
def analyzeStmt (c : Ctx) : Stmt → Ctx
  | .bind d value => (analyzeValue c value).declare d
  | .assign target value =>
    let c₁ := moveValue (analyzeExpr (analyzeExpr c target) value) value
    target.bareName?.elim c₁ c₁.checkAssign
  | .forC init cond incr body =>
    (analyzeStmts (analyzeStmts (analyzeOpt (analyzeStmts c init) cond) incr) body).popScope
      c.vars.length
  | .forever body => (analyzeStmts c body).popScope c.vars.length
  | .ite cond thn els =>
    let c₀ := analyzeExpr c cond
    let c₁ := (analyzeStmts c₀ thn).popScope c₀.vars.length
    let c₂ := (analyzeStmts (c₁.restoreOpaque c₀.vars) els).popScope c₀.vars.length
    c₂.join c₀.vars c₁.vars
  | .run | .brk | .cont => c
  | .expr e => analyzeExpr c e
  | .fan binds body =>
    (analyzeStmts (binds.foldl Ctx.declare c) body).popScope c.vars.length
  | .ret es => analyzeReturn c es
  | .multiBind targets value => targets.foldl analyzeTarget (analyzeOpt c value)
  | .block body => (analyzeStmts c body).popScope c.vars.length
  | .matchOn scrut arms => analyzeArms (analyzeOpt c scrut) arms

def analyzeStmts (c : Ctx) : List Stmt → Ctx
  | [] => c
  | s :: ss => analyzeStmts (analyzeStmt c s) ss

def analyzeArms (c : Ctx) : List (List Stmt) → Ctx
  | [] => c
  | arm :: arms => analyzeArms ((analyzeStmts c arm).popScope c.vars.length) arms

end

/-- The walk over a func, proc, map or system body: `params` are declared in a new scope over what
is visible outside, and the body follows in that scope. -/
def analyzeBody (outer : Vars) (params : List Decl) (body : List Stmt) : Ctx :=
  (analyzeStmts ⟨outer.declareAll params, []⟩ body).popScope outer.length

/-- The front end accepts the body. -/
def Accepted (outer : Vars) (params : List Decl) (body : List Stmt) : Prop :=
  (analyzeBody outer params body).diags = []

/-! ## Paths -/

/-- An event of a path: `use v`, the variable `v` is read, stored through or moved, with the flag
it has at that moment; `again before now`, a loop goes on in `now` where it was in `before`. -/
inductive Event
  | use (v : Var)
  | again (before now : Vars)
deriving DecidableEq, Repr

def touch (x : String) : Path Vars Event := .act fun r => (r, (r.find x).toList.map .use)

/-- The move of a name that was just read. -/
def take (x : String) : Path Vars Event := .act fun r => (r.consume x, [])

/-- The move of an operand: lowering drops the parentheses around it. -/
def takeOperand (op : UnaryOp) (e : Expr) : Path Vars Event :=
  if op = .move then e.parenName?.elim .skip take else .skip

/-- A bare name in a place that takes ownership of variables with `p`. -/
def handOver (p : Decl → Bool) (x : String) : Path Vars Event := .act fun r =>
  match r.find x with
  | none => (r, [])
  | some v => if p v.decl then (r.consume x, [.use v]) else (r, [])

def handOverAll (p : Decl → Bool) : List String → Path Vars Event
  | [] => .skip
  | x :: xs => .seq (handOver p x) (handOverAll p xs)

def isOpaque (d : Decl) : Bool := d.cls == .opaqueType

/-- What was declared since `before` goes out of scope. -/
def cutBack (before now : Vars) : Vars := now.cut before.length

/-- `body` for each of some rows. -/
def rows (body : Path Vars Event) : Path Vars Event :=
  .Loop ⟨false, true⟩ cutBack .again (fun _ => .skip) body .skip

mutual

/-- The evaluation of an expression, in the order of the generated code: `&&` and `||` may leave
out their right operand, `ifS` and `whenS` run one arm, a collective evaluates its column for each
row. The finalizer after `|>` is a name, not a value. Arguments are handed over by the call, after
they were all evaluated. -/
def Eval : Expr → Path Vars Event
  | .literal | .hole => .skip
  | .arrayLit es | .tupleLit es => EvalAll es
  | .paren e => Eval e
  | .name x | .field x => touch x
  | .fieldOf e => Eval e
  | .index b ix => .seq (Eval b) (EvalAll ix)
  | .binary .fmap l _ => Eval l
  | .binary .logical l r => .seq (Eval l) (.choice .skip (Eval r))
  | .binary .other l r => .seq (Eval l) (Eval r)
  | .unary op e => .seq (Eval e) (takeOperand op e)
  | .builtin args => EvalAll args
  | .ifS c t e => .seq (Eval c) (.choice (Eval t) (Eval e))
  | .whenS c b => .seq (Eval c) (.choice .skip (Eval b))
  | .collective e => rows (Eval e)
  | .call f own args =>
    .seq (touch f) (.seq (EvalAll args)
      (.seq (handOverAll isOpaque (if f == "insert" then insertNames args else []))
        (handOverAll Decl.moveOnly (ownNames own args))))
  | .entity vals => EvalAll vals

def EvalAll : List Expr → Path Vars Event
  | [] => .skip
  | e :: es => .seq (Eval e) (EvalAll es)

end

def EvalOpt : Option Expr → Path Vars Event
  | none => .skip
  | some e => Eval e

/-- The value of a binding or an assignment, then the implicit move. -/
def EvalValue (e : Expr) : Path Vars Event :=
  .seq (Eval e) (handOverAll Decl.moveOnly e.bareName?.toList)

def EvalReturn : List Expr → Path Vars Event
  | [] => .leave .returned
  | e :: es => .seq (.seq (Eval e) (handOverAll isOpaque e.bareName?.toList)) (EvalReturn es)

/-- The store through the variable a target names. -/
def store (target : Expr) : Path Vars Event := target.root?.elim .skip touch

def declareVar (d : Decl) : Path Vars Event := .act fun r => (r.declare d, [])

def BindTarget : Target → Path Vars Event
  | .new d => if d.name == "_" then .skip else declareVar d
  | .place x => touch x

def BindTargets : List Target → Path Vars Event
  | [] => .skip
  | g :: gs => .seq (BindTarget g) (BindTargets gs)

mutual

/-- The paths of a statement. A `match` takes one of its arms or none, and the variables of a
loop's body live for one round. -/
def Exec : Stmt → Path Vars Event
  | .bind d value => .seq (value.elim .skip EvalValue) (declareVar d)
  | .assign target value => .seq (Eval target) (.seq (EvalValue value) (store target))
  | .forC init cond incr body =>
    .within cutBack (.seq (ExecAll init)
      (.Loop ⟨cond.isSome, false⟩ cutBack .again (fun _ => EvalOpt cond) (ExecAll body) (ExecAll incr)))
  | .forever body => .Loop ⟨false, false⟩ cutBack .again (fun _ => .skip) (ExecAll body) .skip
  | .ite cond thn els =>
    .seq (Eval cond)
      (.choice (.within cutBack (ExecAll thn)) (.within cutBack (ExecAll els)))
  | .run => .skip
  | .expr e => Eval e
  | .fan binds body => rows (.seq (.act fun r => (r.declareAll binds, [])) (ExecAll body))
  | .ret es => EvalReturn es
  | .brk => .leave .broke
  | .cont => .leave .continued
  | .multiBind targets value => .seq (EvalOpt value) (BindTargets targets)
  | .block body => .within cutBack (ExecAll body)
  | .matchOn scrut arms => .seq (EvalOpt scrut) (ExecArm arms)

def ExecAll : List Stmt → Path Vars Event
  | [] => .skip
  | s :: ss => .seq (Exec s) (ExecAll ss)

def ExecArm : List (List Stmt) → Path Vars Event
  | [] => .skip
  | arm :: arms => .choice (.within cutBack (ExecAll arm)) (ExecArm arms)

end

/-- The variables when a body is entered: nothing was moved on the path yet. -/
def atEntry (outer : Vars) (params : List Decl) : Vars :=
  Vars.declareAll params (outer.map fun v => { v with consumed := false })

/-- No event of the path reads or moves a variable that was moved before on it. -/
def Clean (t : List Event) : Prop := ∀ v, .use v ∈ t → v.consumed = false

/-- Once a variable was moved on a path through the body, the path does not touch it again. A new
declaration makes a new variable. -/
def NoUseAfterMove (outer : Vars) (params : List Decl) (body : List Stmt) : Prop :=
  ∀ o r t, ExecAll body (atEntry outer params) o r t → Clean t

/-! ## A body that is accepted and moves twice -/

/-- `r: res`, an opaque variable. -/
def resource : Decl := ⟨"r", .opaqueType, false, false, false⟩

/-- `sink(move r);` with `sink :: proc(own r: res)`. -/
def sinkResource : Stmt := .expr (.call "sink" [true] [.unary .move (.name "r")])

/-- `open_res()(r:); for { sink(move r); }` -/
def sinkForever : List Stmt :=
  [.multiBind [.new resource] (some (.call "open_res" [] [])), .forever [sinkResource]]

theorem sinkForever_accepted : Accepted [] [] sinkForever := by
  unfold Accepted
  decide

theorem sinkResource_run (b : Bool) :
    ExecAll [sinkResource] [⟨resource, b⟩] .normal [⟨resource, true⟩] [.use ⟨resource, b⟩] := by
  have hf : touch "sink" [⟨resource, b⟩] .normal [⟨resource, b⟩] [] := Path.act_run _ _
  have hx : touch "r" [⟨resource, b⟩] .normal [⟨resource, b⟩] [.use ⟨resource, b⟩] :=
    Path.act_run _ _
  have hmove : take "r" [⟨resource, b⟩] .normal [⟨resource, true⟩] [] := Path.act_run _ _
  have harg : EvalAll [.unary .move (.name "r")] [⟨resource, b⟩] .normal [⟨resource, true⟩]
      [.use ⟨resource, b⟩] := Path.seq_run (Path.seq_run hx hmove) (Path.skip_run _)
  have hcall : Exec sinkResource [⟨resource, b⟩] .normal [⟨resource, true⟩]
      [.use ⟨resource, b⟩] :=
    Path.seq_run hf (Path.seq_run harg (Path.seq_run (Path.skip_run _) (Path.skip_run _)))
  exact Path.seq_run hcall (Path.skip_run _)

theorem openResource_run :
    Exec (.multiBind [.new resource] (some (.call "open_res" [] []))) [] .normal
      [⟨resource, false⟩] [] :=
  Path.seq_run (Path.seq_run (Path.act_run _ _) (Path.seq_run (Path.skip_run _)
    (Path.seq_run (Path.skip_run _) (Path.skip_run _))))
    (Path.seq_run (Path.act_run _ _) (Path.skip_run _))

theorem sinkForever_run : ∃ r t, ExecAll sinkForever (atEntry [] []) .halted r t ∧
    .use ⟨resource, true⟩ ∈ t := by
  -- two rounds, and then the loop is cut
  have hloop : Path.Loop ⟨false, false⟩ cutBack Event.again (fun _ => Path.skip) (ExecAll [sinkResource])
      Path.skip [⟨resource, false⟩] .halted _ _ :=
    .next (Path.skip_run _) (sinkResource_run false) (.inl rfl) (Path.skip_run _)
      (.next (Path.skip_run _) (sinkResource_run true) (.inl rfl) (Path.skip_run _) .cutOff)
  have hrest : ExecAll [.forever [sinkResource]] [⟨resource, false⟩] .halted _ _ :=
    Path.seq_out (fun h => Outcome.noConfusion h) hloop
  exact ⟨_, _, Path.seq_run openResource_run hrest, by simp⟩

theorem not_noUseAfterMove :
    ¬ ∀ outer params body, Accepted outer params body → NoUseAfterMove outer params body := by
  intro h
  obtain ⟨r, t, hrun, hmem⟩ := sinkForever_run
  exact Bool.noConfusion (h [] [] sinkForever sinkForever_accepted _ r t hrun _ hmem)

end Arche.Semantic
