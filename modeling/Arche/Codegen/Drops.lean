import Arche.Lib.Path

/-!
# Destructors of locals: what codegen.c emits for a body

A local of an opaque type with a `@drop` destructor lives in a stack slot.
`drop_track` puts it on one list, `drop_mark_consumed` flags the innermost entry of
a name, `pop_value_scope` and `return` emit a destructor call for the entries that
are not flagged. This module embeds that emission (`emitStmt`) and the paths of the
emitted code (`Code.run`).

* An expression is kept as far as it names locals: `op` stands for every operator,
  index, field and literal, its operands in the order of the generated code.
* What lowering does is done: a bare name that a call takes is a `move`, a `match`
  is a block with an `if` chain, a fan over several archetypes is one fan for each.
* A slot has a status on a path. An event records the status a slot has when the
  code reads it, hands its value over, stores into it or destroys its value, and
  the statuses of the slots of a scope when the scope is left.

The law (`DropsOnce`) is that every event of every path is good: a value is read,
handed over and destroyed while it is there, nothing is stored over it, and no
scope is left with a value in it. It fails (`not_dropsOnce`): the arms of an `if`
are no scopes for the list, so a local of an arm is destroyed at the end of the
body on the other arm too.
-/

namespace Arche.Codegen.Drops

open Arche.Lib

/-- A stack slot of a droppable local. Slots are numbered in the order of the text. -/
abbrev Slot := Nat

/-! ## The lowered body -/

/-- `insert` has the values for its columns, given one by one or as an entity. -/
inductive Expr
  | literal
  | name (x : String)
  | move (e : Expr)
  | copy (e : Expr)
  | op (es : List Expr)
  | logical (l r : Expr)
  | call (args : List Expr)
  | insert (vals : List Expr)

/-- An out-target of a call: a new variable, droppable or not, or an existing one. -/
inductive Target
  | new (x : String) (droppable : Bool)
  | place (x : String)

/-- What a multi-bind calls: an extern, a proc with a body, or a func with several results. -/
inductive Callee
  | foreign
  | proc
  | func

inductive AssignTo
  | var (x : String)
  | place (es : List Expr)

/-- The statements a clause of a `for` can be. `scatter` assigns an array literal to a pool column,
`run` runs a map. -/
inductive Simple
  | bind (x : String) (droppable : Bool) (value : Option Expr)
  | multiBind (callee : Callee) (value : Expr) (targets : List Target)
  | assign (target : AssignTo) (value : Expr)
  | scatter (vals : List Expr)
  | expr (e : Expr)
  | run (gpu : Bool)

/-- `forC` has an `init` or an `incr`, `loop` has neither. -/
inductive Stmt
  | simple (s : Simple)
  | forC (init : Option Simple) (cond : Option Expr) (incr : Option Simple) (body : List Stmt)
  | loop (cond : Option Expr) (body : List Stmt)
  | ite (cond : Expr) (thn els : List Stmt)
  | block (body : List Stmt)
  | fan (binds : List String) (body : List Stmt)
  | ret (vals : List Expr)
  | brk
  | cont

def Expr.bare? : Expr → Option String
  | .name x => some x
  | _ => none

/-- The name a `move` is of. -/
def Expr.moved? : Expr → Option String
  | .move e => e.bare?
  | _ => none

/-- The name under any `move` and `copy`. -/
def Expr.stripped? : Expr → Option String
  | .name x => some x
  | .move e | .copy e => e.stripped?
  | _ => none

/-- A name, or one under one `move`. -/
def Expr.given? (e : Expr) : Option String := e.bare? <|> e.moved?

/-- An element of an array literal without its `move` or `copy`. -/
def Expr.element : Expr → Expr
  | .move e | .copy e => e
  | e => e

/-! ## The emitted code -/

inductive Instr
  | read (s : Slot)
  | take (s : Slot)
  | put (s : Slot)
  | drop (s : Slot)
deriving DecidableEq, Repr

/-- Structured code. `scope lo hi c` is the code of a scope of the source whose locals are the slots
from `lo` up to `hi`; nothing is emitted for it. -/
inductive Code
  | skip
  | instr (i : Instr)
  | seq (a b : Code)
  | ite (a b : Code)
  | loop (tested : Bool) (cond body incr : Code)
  | rows (body : Code)
  | exit (o : Lib.Outcome)
  | scope (lo hi : Slot) (c : Code)
deriving DecidableEq, Repr

/-! ## The context -/

/-- An entry of `drop_live`. -/
structure Entry where
  name : String
  slot : Slot
  depth : Nat
  consumed : Bool
deriving DecidableEq, Repr

/-- `scopes` and `live` have the newest first. A name that is no droppable local has no slot. -/
structure Ctx where
  scopes : List (List (String × Option Slot))
  live : List Entry
  terminated : Bool
  next : Slot
deriving DecidableEq, Repr

/-- The slot of the variable `find_value` finds. -/
def lookup (vs : List (String × Option Slot)) (x : String) : Option Slot :=
  (vs.find? fun v => v.1 == x).bind Prod.snd

def markFirst (x : String) : List Entry → List Entry
  | [] => []
  | e :: es =>
    if !e.consumed && e.name == x then { e with consumed := true } :: es else e :: markFirst x es

/-- A destructor call for each entry that is not flagged. -/
def drops : List Entry → Code
  | [] => .skip
  | e :: es => if e.consumed then drops es else .seq (.instr (.drop e.slot)) (drops es)

namespace Ctx

def findValue (c : Ctx) (x : String) : Option Slot := lookup c.scopes.flatten x

def addValue (c : Ctx) (x : String) (v : Option Slot) : Ctx :=
  match c.scopes with
  | [] => c
  | s :: ss => { c with scopes := ((x, v) :: s) :: ss }

/-- A new droppable variable, in `drop_live` when it is tracked. -/
def addSlot (c : Ctx) (x : String) (track : Bool) : Ctx :=
  let c₁ := { c.addValue x (some c.next) with next := c.next + 1 }
  if track then { c₁ with live := ⟨x, c.next, c.scopes.length, false⟩ :: c₁.live } else c₁

def dropMarkConsumed (c : Ctx) (x : String) : Ctx := { c with live := markFirst x c.live }

def markOpt (c : Ctx) : Option String → Ctx
  | none => c
  | some x => c.dropMarkConsumed x

def pushValueScope (c : Ctx) : Ctx := { c with scopes := [] :: c.scopes }

/-- Nothing is emitted when a `return` was the last thing emitted. -/
def popValueScope (c : Ctx) : Code × Ctx :=
  let depth := c.scopes.length
  (if c.terminated then .skip else drops (c.live.takeWhile fun e => depth ≤ e.depth),
    { c with scopes := c.scopes.tail, live := c.live.dropWhile fun e => depth ≤ e.depth })

def atLabel (c : Ctx) : Ctx := { c with terminated := false }

def readName (c : Ctx) (x : String) : Code := (c.findValue x).elim .skip fun s => .instr (.read s)

def takeName (c : Ctx) (x : String) : Code := (c.findValue x).elim .skip fun s => .instr (.take s)

def putName (c : Ctx) (x : String) : Code := (c.findValue x).elim .skip fun s => .instr (.put s)

end Ctx

/-! ## Expressions -/

mutual

/-- `codegen_expression`. The right operand of `&&` and `||` is in a block of its own; an argument
`move x` flags `x` before it is evaluated, `insert` flags all its values first. -/
def emitExpr (c : Ctx) : Expr → Code × Ctx
  | .literal => (.skip, c)
  | .name x => (c.readName x, c)
  | .move e =>
    match e.bare? with
    | some x => (c.takeName x, c)
    | none => emitExpr c e
  | .copy e => emitExpr c e
  | .op es => emitExprs c es
  | .logical l r =>
    let a := emitExpr c l
    let b := emitExpr a.2.atLabel r
    (.seq a.1 (.ite .skip b.1), b.2.atLabel)
  | .call args => emitArgs c args
  | .insert vals => emitVals (vals.foldl (fun c e => c.markOpt e.given?) c) vals

def emitExprs (c : Ctx) : List Expr → Code × Ctx
  | [] => (.skip, c)
  | e :: es =>
    let a := emitExpr c e
    let b := emitExprs a.2 es
    (.seq a.1 b.1, b.2)

def emitArgs (c : Ctx) : List Expr → Code × Ctx
  | [] => (.skip, c)
  | e :: es =>
    let a := emitExpr (c.markOpt e.moved?) e
    let b := emitArgs a.2 es
    (.seq a.1 b.1, b.2)

/-- Values that are handed over: a bare name is moved. -/
def emitVals (c : Ctx) : List Expr → Code × Ctx
  | [] => (.skip, c)
  | e :: es =>
    match e.bare? with
    | some x =>
      let b := emitVals c es
      (.seq (c.takeName x) b.1, b.2)
    | none =>
      let a := emitExpr c e
      let b := emitVals a.2 es
      (.seq a.1 b.1, b.2)

end

def emitOpt (c : Ctx) : Option Expr → Code × Ctx
  | none => (.skip, c)
  | some e => emitExpr c e

/-- A value that is handed over. -/
def emitTaken (c : Ctx) (e : Expr) : Code × Ctx :=
  match e.bare? with
  | some x => (c.takeName x, c)
  | none => emitExpr c e

/-! ## Statements -/

/-- The results of an extern or a func are stored after the call, and each new variable is there
from then on. Only those of an extern are tracked. -/
def emitTargets (track : Bool) (c : Ctx) : List Target → Code × Ctx
  | [] => (.skip, c)
  | .new x true :: gs =>
    let b := emitTargets track (c.addSlot x track) gs
    (.seq (.instr (.put c.next)) b.1, b.2)
  | .new x false :: gs => emitTargets track (c.addValue x none) gs
  | .place x :: gs =>
    let b := emitTargets track c gs
    (.seq (c.putName x) b.1, b.2)

/-- The out-pointers of a proc: its new variables are there, and tracked, before the call. -/
def declareTargets (c : Ctx) : List Target → List Slot × Ctx
  | [] => ([], c)
  | .new x true :: gs =>
    let b := declareTargets (c.addSlot x true) gs
    (c.next :: b.1, b.2)
  | .new x false :: gs => declareTargets (c.addValue x none) gs
  | .place x :: gs =>
    let b := declareTargets c gs
    ((c.findValue x).toList ++ b.1, b.2)

def puts : List Slot → Code
  | [] => .skip
  | s :: ss => .seq (.instr (.put s)) (puts ss)

def emitScatter (c : Ctx) : List Expr → Code × Ctx
  | [] => (.skip, c)
  | e :: es =>
    let a := emitTaken c e.element
    let b := emitScatter (a.2.markOpt e.element.bare?) es
    (.seq a.1 b.1, b.2)

/-- `codegen_statement` on the statements without control flow. A binding is not tracked. -/
def emitSimple (c : Ctx) : Simple → Code × Ctx
  | .bind x true none => (.skip, c.addSlot x false)
  | .bind x true (some e) =>
    let a := emitTaken c e
    (.seq a.1 (.instr (.put a.2.next)), a.2.addSlot x false)
  | .bind x false none => (.skip, c.addValue x none)
  | .bind x false (some e) =>
    let a := emitTaken c e
    (a.1, a.2.addValue x none)
  | .multiBind .foreign value targets =>
    let a := emitExpr c value
    let b := emitTargets true a.2 targets
    (.seq a.1 b.1, b.2)
  | .multiBind .func value targets =>
    let a := emitExpr c value
    let b := emitTargets false a.2 targets
    (.seq a.1 b.1, b.2)
  | .multiBind .proc value targets =>
    let d := declareTargets c targets
    let a := emitExpr d.2 value
    (.seq a.1 (puts d.1), a.2)
  | .assign (.var x) value =>
    let a := emitTaken (c.markOpt value.stripped?) value
    (.seq a.1 (a.2.putName x), a.2)
  | .assign (.place es) value =>
    let a := emitTaken (c.markOpt value.stripped?) value
    let b := emitExprs a.2 es
    (.seq a.1 b.1, b.2)
  | .scatter vals => emitScatter c vals
  | .expr e => emitExpr c e
  | .run gpu => (.skip, if gpu then c.atLabel else c)

def emitClause (c : Ctx) : Option Simple → Code × Ctx
  | none => (.skip, c)
  | some s => emitSimple c s

/-- There is a loop to leave, one to go on with. -/
structure Labels where
  brk : Bool
  cont : Bool
deriving DecidableEq, Repr

mutual

/-- `codegen_statement`. A `for` with clauses has one value scope for its clauses and its body, a
`for` without has one for its body, blocks and the arms of an `if` have none. `block_terminated` is
reset where the generated code has a label, but not after a `for` without clauses. A `return`
destroys before it evaluates; a `break` and a `continue` only jump. -/
def emitStmt (l : Labels) (c : Ctx) : Stmt → Code × Ctx
  | .simple s => emitSimple c s
  | .forC init cond incr body =>
    let p := emitClause c.pushValueScope init
    let q := emitOpt p.2 cond
    let b := emitStmts ⟨true, true⟩ q.2 body
    let i := emitClause b.2.atLabel incr
    let d := i.2.popValueScope
    (.scope c.next i.2.next (.seq p.1
      (.seq (.loop cond.isSome q.1 (.scope q.2.next b.2.next b.1) i.1) d.1)), d.2)
  | .loop cond body =>
    let q := emitOpt c cond
    let b := emitStmts ⟨true, true⟩ q.2.pushValueScope body
    let d := b.2.popValueScope
    (.loop cond.isSome q.1 (.scope q.2.next b.2.next (.seq b.1 d.1)) .skip, d.2)
  | .ite cond thn els =>
    let q := emitExpr c cond
    let a := emitStmts l q.2.atLabel thn
    let b := emitStmts l a.2.atLabel els
    (.seq q.1 (.ite (.scope q.2.next a.2.next a.1) (.scope a.2.next b.2.next b.1)), b.2.atLabel)
  | .block body =>
    let b := emitStmts l c body
    (.scope c.next b.2.next b.1, b.2)
  | .fan binds body =>
    let c₁ := binds.foldl (fun c x => c.addValue x none) c.pushValueScope
    let b := emitStmts ⟨l.brk, true⟩ c₁.atLabel body
    let d := b.2.popValueScope
    (.rows (.scope c.next b.2.next (.seq b.1 d.1)), d.2.atLabel)
  | .ret vals =>
    let c₁ := vals.foldl (fun c e => c.markOpt e.bare?) c
    let b := emitVals { c₁ with terminated := true } vals
    (.seq (drops c₁.live) (.seq b.1 (.exit .returned)), b.2)
  | .brk => (if l.brk then .exit .broke else .skip, c)
  | .cont => (if l.cont then .exit .continued else .skip, c)

def emitStmts (l : Labels) (c : Ctx) : List Stmt → Code × Ctx
  | [] => (.skip, c)
  | s :: ss =>
    let a := emitStmt l c s
    let b := emitStmts l a.2 ss
    (.seq a.1 b.1, b.2)

end

/-- The context in which a body is emitted: its parameters are in the first scope. -/
def entryCtx (params : List String) : Ctx := ⟨[params.map fun x => (x, none)], [], false, 0⟩

/-- The code of a func, proc or system body. -/
def emitBody (params : List String) (body : List Stmt) : Code :=
  let b := emitStmts ⟨false, false⟩ (entryCtx params) body
  .scope 0 b.2.next (.seq b.1 b.2.popValueScope.1)

/-! ## Paths -/

/-- The status of a slot on a path: `live` while it holds a value that is neither handed over nor
destroyed. -/
inductive Status
  | empty
  | live
  | moved
  | destroyed
deriving DecidableEq, Repr

abbrev Mem := Slot → Status

def Mem.set (m : Mem) (s : Slot) (st : Status) : Mem := fun s' => if s' = s then st else m s'

/-- What happens to a slot, with the status it has then; `leave`, a scope is left with its slots in
these statuses; `again`, a loop goes on. -/
inductive Event
  | read (s : Slot) (st : Status)
  | take (s : Slot) (st : Status)
  | put (s : Slot) (st : Status)
  | destroy (s : Slot) (st : Status)
  | leave (sts : List Status)
  | again
deriving DecidableEq, Repr

/-- A value is used, handed over and destroyed while it is live, so at most one of the last two
happens to it, once. It is not lost under another value, and not left behind in its scope, so one of
the two does happen before the scope is left. -/
def Event.good : Event → Bool
  | .read _ st | .take _ st | .destroy _ st => st == .live
  | .put _ st => st != .live
  | .leave sts => !sts.contains .live
  | .again => true

def Instr.exec : Instr → Mem → Mem × List Event
  | .read s, m => (m, [.read s (m s)])
  | .take s, m => (m.set s .moved, [.take s (m s)])
  | .put s, m => (m.set s .live, [.put s (m s)])
  | .drop s, m => (m.set s .destroyed, [.destroy s (m s)])

/-- The statuses of the slots from `lo` up to `hi`. -/
def leaving (lo hi : Slot) (m : Mem) : Event := .leave ((List.range' lo (hi - lo)).map m)

def Code.run : Code → Path Mem Event
  | .skip => .skip
  | .instr i => .act i.exec
  | .seq a b => .seq a.run b.run
  | .ite a b => .choice a.run b.run
  | .loop tested cond body incr =>
    .Loop ⟨tested, false⟩ (fun _ m => m) (fun _ _ => .again) (fun _ => cond.run) body.run incr.run
  | .rows body => .Rows body.run
  | .exit o => .leave o
  | .scope lo hi c => .closing (leaving lo hi) c.run

def noValue : Mem := fun _ => .empty

/-- Every path through the code of the body disposes of every value of a droppable local once. -/
def DropsOnce (params : List String) (body : List Stmt) : Prop :=
  ∀ o m t, (emitBody params body).run noValue o m t → ∀ e ∈ t, e.good

/-! ## A local of one arm -/

/-- `obj_open()(h:);` -/
def openObject : Stmt := .simple (.multiBind .foreign (.call []) [.new "h" true])

/-- `if (c) { obj_open()(h:); }` -/
def openInArm : List Stmt := [.ite (.name "c") [openObject] []]

/-- Where `c` is false the destructor is called on a slot nothing was stored in. -/
theorem openInArm_run : ∃ o m t, (emitBody ["c"] openInArm).run noValue o m t ∧
    .destroy 0 .empty ∈ t := by
  have hcode : emitBody ["c"] openInArm = .scope 0 1 (.seq (.seq (.seq .skip
      (.ite (.scope 0 1 (.seq (.seq .skip (.seq (.instr (.put 0)) .skip)) .skip))
        (.scope 1 1 .skip))) .skip) (.seq (.instr (.drop 0)) .skip)) := by decide
  rw [hcode]
  have hels : (Code.scope 1 1 .skip).run noValue .normal noValue [.leave []] :=
    ⟨[], Path.skip_run _, rfl⟩
  have harms : (Code.ite (.scope 0 1 (.seq (.seq .skip (.seq (.instr (.put 0)) .skip)) .skip))
      (.scope 1 1 .skip)).run noValue .normal noValue [.leave []] := .inr hels
  have hdrop : (Code.instr (.drop 0)).run noValue .normal _ _ := Path.act_run _ _
  exact ⟨_, _, _, ⟨_, Path.seq_run (Path.seq_run (Path.seq_run (Path.skip_run _) harms)
    (Path.skip_run _)) (Path.seq_run hdrop (Path.skip_run _)), rfl⟩, by simp [Instr.exec, noValue]⟩

theorem not_dropsOnce : ¬∀ params body, DropsOnce params body := by
  intro h
  obtain ⟨o, m, t, hrun, hmem⟩ := openInArm_run
  exact absurd (h _ _ o m t hrun _ hmem) (by decide)

end Arche.Codegen.Drops
