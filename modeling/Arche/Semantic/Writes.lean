import Arche.Semantic.Views
import Mathlib.Logic.Relation

/-!
# Writes to storage a body does not own

A body may not write the elements of a parameter it borrows or of an array constant,
and the body of a kernel only the query columns it lists in its `(writes)`. Both rules
are kept by the same case of `analyze_statement`, which looks at the leftmost name of
an assignment's target and at nothing else.

This module embeds the walk (`analyzeStmt`) with the stack of enclosing kernels and
the columns it collects, and next to it the paths of a body (`Exec`), on which a
variable is known by the storage it refers to.

* Of the diagnostics those about writes are kept, so a body the front end accepts is
  accepted here. What the type checker finds out is part of the tree.
* What a call returns may be a view of whatever its arguments are views of.
* `kwrite_stack` has room for 16 kernels and is read without a check; what a read
  behind it finds is any `beyond`.

`Spares` says of a body that the writes are good which the walk does not look at: those
that go by another name than the one the storage was declared with, those of out-lists
and in-out arguments, and those that name a column by its pool or row.
-/

namespace Arche.Semantic.Writes

open Arche.Lib
open Views (TyKind)

/-! ## The tree -/

/-- The fields of `VariableInfo` the walk reads. `isColumn` and `isRow` say what the variable was
declared for, a column of a query or the row an `as` binder names; the walk does not read them. -/
structure Decl where
  name : String
  kind : TyKind
  isParam : Bool := false
  isOwn : Bool := false
  isOutPlace : Bool := false
  borrowsLocal : Bool := false
  isColumn : Bool := false
  isRow : Bool := false
deriving DecidableEq, Repr

/-- A `map`, `each` or `system`, declared or in statement position. `rowVar` is an `as` binder that
is a variable, `driver` are the names of the archetype whose rows drive the kernel, `joined` those
of the other archetypes it reads and the `as` binder of a `system`. -/
structure Kernel where
  isMap : Bool
  cols : List (String × TyKind)
  rowVar : Option String
  driver : List String
  joined : List String
  writes : List String
deriving DecidableEq, Repr

def Kernel.binds (k : Kernel) (c : String) : Bool := k.cols.any fun col => col.1 == c

/-- `x.c` is a column of the kernel. -/
def Kernel.qualifies (k : Kernel) (x : String) : Bool :=
  k.rowVar == some x || k.driver.contains x || k.joined.contains x

/-- The target of an assignment: a whole variable, an element of `base`, or `root.field` with or
without an index. -/
inductive Target
  | name (x : String)
  | elem (base : Views.Expr)
  | field (root field : String) (indexed : Bool)

/-- The leftmost name (`sv_name_expr_dup`). -/
def Target.leftmost : Target → Option String
  | .name x => some x
  | .elem b => b.leftmost
  | .field root _ _ => some root

/-- An argument, and whether its parameter is also an out-parameter of the callee. -/
structure Arg where
  value : Views.Expr
  inOut : Bool

/-- A target of `f(in)(out)` or of a multiple bind other than `_`. -/
structure Out where
  name : String
  isNew : Bool
  kind : TyKind

/-- Statements. `typed` says whether a bind has a type of its own; without a value it declares
storage. `other` is a statement that neither declares nor writes a variable. -/
inductive Stmt
  | bind (x : String) (k : TyKind) (typed : Bool) (value : Option Views.Expr)
  | assign (target : Target) (value : Views.Expr)
  | call (args : List Arg) (outs : List Out)
  | other
  | fan (k : Kernel) (body : List Stmt)
  | eachField (x : String) (body : List Stmt)
  | forC (init : List Stmt) (tested : Bool) (incr body : List Stmt)
  | forever (body : List Stmt)
  | ite (thn els : List Stmt)
  | block (body : List Stmt)
  | matchOn (arms : List (List Stmt))
  | ret
  | brk
  | cont

/-! ## Variables -/

/-- `find_variable`, newest first. -/
def find (x : String) (vs : List Decl) : Option Decl := vs.find? fun d => d.name == x

/-- A local variable of the body. -/
def Decl.local (x : String) (k : TyKind) (borrowsLocal : Bool) : Decl :=
  { name := x, kind := k, borrowsLocal }

/-- A local array or slice. -/
def Decl.freshLocal (d : Decl) : Bool := !d.isParam && d.kind.byref

/-- A parameter that is a view of what the caller owns. -/
def Decl.borrowed (d : Decl) : Bool := !d.isOwn && !d.isOutPlace && d.isParam && d.kind.byref

/-- The flag of a variable `x` bound to `value`. The base is looked up after `x` was added, when
only an array has its type yet. -/
def taint (vs : List Decl) (x : String) (k : TyKind) (typed : Bool)
    (value : Option Views.Expr) : Bool :=
  let vs' := Decl.local x (if k == .array then .array else .other) false :: vs
  match typed, value with
  | false, some e =>
    e.isPostfix && (e.leftmost.bind (find · vs')).any fun d => d.freshLocal || d.borrowsLocal
  | _, _ => false

/-- The columns of a query as variables (`bind_query_archetype`), under the `as` binder. -/
def Kernel.decls (k : Kernel) : List Decl :=
  (k.rowVar.map fun x => { name := x, kind := .other, isRow := true : Decl }).toList ++
    (k.cols.map fun col =>
      { name := col.1, kind := col.2, isParam := true, isColumn := true : Decl }).reverse

/-- The new targets of a call, one after the other. -/
def outDecls (outs : List Out) : List Decl :=
  ((outs.filter Out.isNew).map fun o => Decl.local o.name o.kind false).reverse

/-- What a statement declares in the scope it stands in. -/
def bound (vs : List Decl) : Stmt → List Decl
  | .bind x k typed value => [Decl.local x k (taint vs x k typed value)]
  | .call _ outs => outDecls outs
  | _ => []

/-- The variables in scope after some statements. -/
def declared (vs : List Decl) : List Stmt → List Decl
  | [] => vs
  | s :: ss => declared (bound vs s ++ vs) ss

/-! ## The walk -/

/-- What the walk knows of the program. -/
structure Context where
  constArray : String → Bool
  beyond : Nat → String → Bool

/-- A program without array constants, with nothing behind the stack. -/
def Context.plain : Context := ⟨fun _ => false, fun _ _ => false⟩

def stackSize : Nat := 16

/-- `col_is_declared_write`, for the stack with the innermost kernel first. -/
def Context.colIsDeclaredWrite (X : Context) (c : String) : List Kernel → Bool
  | [] => false
  | k :: ks =>
    (if ks.length < stackSize then k.writes.contains c else X.beyond ks.length c) ||
      X.colIsDeclaredWrite c ks

inductive Diag
  | cannotMoveBorrowed (x : String)
  | sliceRepoint (x : String)
  | assignToConst (x : String)
  | cannotMutateBorrowed (x : String)
  | cannotMutateBorrowedLocal (x : String)
  | indexedWriteInSelector (x : String)
  | assignToUndeclared (x : String)
  | mapNotATransform
  | mapNoReturn
  | writeSetMismatch (writes : List String)
deriving DecidableEq, Repr

/-- What the walk leaves behind: an error, or a column for the collector of the kernel. -/
inductive Note
  | error (d : Diag)
  | record (c : String)
deriving DecidableEq, Repr

/-- `implicit_move_consume`. -/
def checkMove (vs : List Decl) : Views.Expr → List Note
  | .name x => if (find x vs).any Decl.borrowed then [.error (.cannotMoveBorrowed x)] else []
  | _ => []

/-- The checks of the leftmost name of a target. -/
def checkRoot (X : Context) (ks : List Kernel) (vs : List Decl) (x : String) : List Note :=
  (if !ks.isEmpty && (find x vs).any Decl.isParam then [.record x] else []) ++
  (if X.constArray x then [.error (.assignToConst x)] else []) ++
  match find x vs with
  | none => []
  | some d =>
    if d.borrowed && !X.colIsDeclaredWrite x ks then [.error (.cannotMutateBorrowed x)]
    else if !d.isOwn && !d.isOutPlace && !d.isParam && d.borrowsLocal then
      [.error (.cannotMutateBorrowedLocal x)]
    else []

/-- The checks of a target by its form. -/
def checkForm (ks : List Kernel) (vs : List Decl) : Target → List Note
  | .name x =>
    if (find x vs).any fun d => !d.isOutPlace && !d.isParam && d.kind == .slice then
      [.error (.sliceRepoint x)]
    else []
  | .elem _ => []
  | .field root _ indexed =>
    if indexed && ks.head?.any fun k => k.driver.contains root then
      [.error (.indexedWriteInSelector root)]
    else []

/-- The checks of the targets of a call. -/
def checkOuts (vs : List Decl) : List Out → List Note
  | [] => []
  | o :: os =>
    if o.isNew then checkOuts (Decl.local o.name o.kind false :: vs) os
    else (if (find o.name vs).isNone then [.error (.assignToUndeclared o.name)] else []) ++
      checkOuts vs os

/-- The statements a `map` is made of. -/
def Stmt.isTransform : Stmt → Bool
  | .bind _ _ _ _ | .assign _ _ | .ret | .brk | .cont => true
  | .forC _ _ _ _ | .forever _ | .ite _ _ | .matchOn _ => true
  | .call _ _ | .other | .fan _ _ | .eachField _ _ | .block _ => false

/-- A column that is neither in the kernel's `(writes)` nor in those of an enclosing one. -/
def Context.unlisted (X : Context) (k : Kernel) (ks : List Kernel) : Note → Bool
  | .record c => !k.writes.contains c && !X.colIsDeclaredWrite c ks
  | .error _ => false

/-- What goes on to the enclosing kernel: the columns it or one around it declared. -/
def Context.passed (X : Context) (ks : List Kernel) : Note → Bool
  | .record c => X.colIsDeclaredWrite c ks
  | .error _ => true

def recorded : List Note → List String
  | [] => []
  | .record c :: ns => c :: recorded ns
  | .error _ :: ns => recorded ns

/-- `kernel_writes_end`. -/
def Context.kernelWritesEnd (X : Context) (k : Kernel) (ks : List Kernel) (ns : List Note) :
    List Note :=
  (if ns.any (X.unlisted k ks) then [.error (.writeSetMismatch (recorded ns))] else []) ++
    ns.filter (X.passed ks)

section Walk

variable (X : Context)

mutual

/-- `analyze_statement` past the test of a `map`. The increment of a `for` is looked at before its
body. -/
def analyzeStmt (ks : List Kernel) (inMap : Bool) (vs : List Decl) : Stmt → List Note
  | .bind _ _ _ value => value.elim [] (checkMove vs)
  | .assign t value =>
    checkMove vs value ++ checkForm ks vs t ++ t.leftmost.elim [] (checkRoot X ks vs)
  | .call _ outs => checkOuts vs outs
  | .other | .brk | .cont => []
  | .ret => if inMap then [.error .mapNoReturn] else []
  | .fan k body =>
    X.kernelWritesEnd k ks (analyzeStmts (k :: ks) (inMap || k.isMap) (k.decls ++ vs) body)
  | .eachField x body => analyzeStmts ks inMap (Decl.local x .other false :: vs) body
  | .forC init _ incr body =>
    analyzeStmts ks inMap vs init ++ analyzeStmts ks inMap (declared vs init) incr ++
      analyzeStmts ks inMap (declared (declared vs init) incr) body
  | .forever body | .block body => analyzeStmts ks inMap vs body
  | .ite thn els => analyzeStmts ks inMap vs thn ++ analyzeStmts ks inMap vs els
  | .matchOn arms => analyzeArms ks inMap vs arms

def analyzeStmts (ks : List Kernel) (inMap : Bool) (vs : List Decl) : List Stmt → List Note
  | [] => []
  | s :: ss =>
    (if inMap && !s.isTransform then [.error .mapNotATransform] else analyzeStmt ks inMap vs s) ++
      analyzeStmts ks inMap (bound vs s ++ vs) ss

def analyzeArms (ks : List Kernel) (inMap : Bool) (vs : List Decl) :
    List (List Stmt) → List Note
  | [] => []
  | arm :: arms => analyzeStmts ks inMap vs arm ++ analyzeArms ks inMap vs arms

end

end Walk

/-! ## Paths -/

/-- Where the elements of a variable are: of a borrowed parameter, of an array constant, in a column
of a query, or anywhere else. -/
inductive Storage
  | param (x : String)
  | const (x : String)
  | column (c : String)
  | other
deriving DecidableEq, Repr

/-- The name the storage is known by. -/
def Storage.home? : Storage → Option String
  | .param x | .const x | .column x => some x
  | .other => none

/-- What a variable refers to when it is declared. -/
def Decl.storage (d : Decl) : Storage :=
  if d.isColumn && d.isParam then .column d.name
  else if d.borrowed then .param d.name
  else .other

structure Var where
  decl : Decl
  storage : Storage
deriving DecidableEq, Repr

def findVar (x : String) (r : List Var) : Option Var := r.find? fun v => v.decl.name == x

def setStorage (x : String) (s : Storage) : List Var → List Var
  | [] => []
  | v :: r => if v.decl.name == x then { v with storage := s } :: r else v :: setStorage x s r

/-- What was declared since `before` goes out of scope. -/
def cutBack (before now : List Var) : List Var := now.drop (now.length - before.length)

section Values

variable (X : Context) (r : List Var)

mutual

/-- The value of the expression may be a view of the storage. Of an array constant and a variable of
one name some places of codegen.c take the constant, and others the variable. -/
def Denotes : Views.Expr → Storage → Prop
  | .external, s | .literal, s => s = .other
  | .name x, s => (X.constArray x = true ∧ s = .const x) ∨
      s = ((findVar x r).map Var.storage).getD .other
  | .slice b, s => Denotes b s
  | .index k b, s => if k.byref then Denotes b s else s = .other
  | .move e, s | .paren e, s => Denotes e s
  | .copy k e, s => if k == .array && e.isName then s = .other else Denotes e s
  | .call k args, s => s = .other ∨ (k.byref = true ∧ AnyDenotes args s)

def AnyDenotes : List Views.Expr → Storage → Prop
  | [], _ => False
  | e :: es, s => Denotes e s ∨ AnyDenotes es s

end

end Values

/-- `x.c` in the body of kernels `ks`. -/
def qualified (ks : List Kernel) (x c : String) : Storage :=
  if ks.any fun k => k.qualifies x && k.binds c then .column c else .other

/-- The storage behind `root.field`: a column by the row or the pool, or a lane of the variable. -/
def fieldStorage (ks : List Kernel) (r : List Var) (root field : String) : Storage :=
  match findVar root r with
  | none => qualified ks root field
  | some v => if v.decl.isRow then qualified ks root field else v.storage

inductive Event
  | wrote (ks : List Kernel) (s : Storage)
  | again
deriving DecidableEq, Repr

section Paths

variable (X : Context)

/-- Some view the value may be, and then `p`. -/
def taking (e : Views.Expr) (p : Storage → Path (List Var) Event) : Path (List Var) Event :=
  .get (fun r s t => Denotes X r e s ∧ t = []) p

/-- Declares a local of kind `k` that is a view of `s`. -/
def declare (mk : List Decl → Decl) (s : Storage) : Path (List Var) Event :=
  .act fun r =>
    let d := mk (r.map Var.decl)
    (⟨d, if d.kind.byref then s else .other⟩ :: r, [])

def bindVar (x : String) (k : TyKind) (typed : Bool) : Option Views.Expr → Path (List Var) Event
  | none => declare (fun vs => Decl.local x k (taint vs x k typed none)) .other
  | some e => taking X e (declare fun vs => Decl.local x k (taint vs x k typed (some e)))

/-- An assignment to a whole variable repoints a slice and writes anything else. -/
def assignVar (ks : List Kernel) (x : String) (s : Storage) : Path (List Var) Event :=
  .act fun r =>
    match findVar x r with
    | none => (r, [])
    | some v =>
      if v.decl.kind == .slice && !v.decl.isColumn then (setStorage x s r, [])
      else (r, [.wrote ks v.storage])

def assign (ks : List Kernel) (value : Views.Expr) : Target → Path (List Var) Event
  | .name x => taking X value (assignVar ks x)
  | .elem b => taking X b fun s => .emit fun _ => .wrote ks s
  | .field root field _ => .emit fun r => .wrote ks (fieldStorage ks r root field)

/-- The callee writes what it is given for an in-out parameter. -/
def passArgs (ks : List Kernel) : List Arg → Path (List Var) Event
  | [] => .skip
  | a :: as =>
    .seq (if a.inOut then taking X a.value fun s => .emit fun _ => .wrote ks s else .skip)
      (passArgs ks as)

/-- The results of a call go to the targets. -/
def fillOuts (ks : List Kernel) (args : List Arg) : List Out → Path (List Var) Event
  | [] => .skip
  | o :: os =>
    .seq (if o.isNew then
        taking X (.call o.kind (args.map Arg.value))
          (declare fun _ => Decl.local o.name o.kind false)
      else .act fun r => (r, ((findVar o.name r).map fun v => .wrote ks v.storage).toList))
      (fillOuts ks args os)

/-- The variables of a query or of a field. -/
def enter (ds : List Decl) : Path (List Var) Event :=
  .act fun r => ((ds.map fun d => ⟨d, d.storage⟩) ++ r, [])

mutual

/-- The paths of a statement. The variables of a loop's body live for one round; a kernel runs its
body for any number of rows. -/
def Exec (ks : List Kernel) : Stmt → Path (List Var) Event
  | .bind x k typed value => bindVar X x k typed value
  | .assign t value => assign X ks value t
  | .call args outs => .seq (passArgs X ks args) (fillOuts X ks args outs)
  | .other => .skip
  | .fan k body =>
    .Loop ⟨false, true⟩ cutBack (fun _ _ => .again) (fun _ => .skip)
      (.seq (enter k.decls) (ExecAll (k :: ks) body)) .skip
  | .eachField x body =>
    .Loop ⟨false, true⟩ cutBack (fun _ _ => .again) (fun _ => .skip)
      (.seq (enter [Decl.local x .other false]) (ExecAll ks body)) .skip
  | .forC init tested incr body =>
    .within cutBack (.seq (ExecAll ks init)
      (.Loop ⟨tested, false⟩ cutBack (fun _ _ => .again) (fun _ => .skip) (ExecAll ks body)
        (ExecAll ks incr)))
  | .forever body =>
    .Loop ⟨false, false⟩ cutBack (fun _ _ => .again) (fun _ => .skip) (ExecAll ks body) .skip
  | .ite thn els => .choice (.within cutBack (ExecAll ks thn)) (.within cutBack (ExecAll ks els))
  | .block body => .within cutBack (ExecAll ks body)
  | .matchOn arms => ExecArm ks arms
  | .ret => .leave .returned
  | .brk => .leave .broke
  | .cont => .leave .continued

def ExecAll (ks : List Kernel) : List Stmt → Path (List Var) Event
  | [] => .skip
  | s :: ss => .seq (Exec ks s) (ExecAll ks ss)

def ExecArm (ks : List Kernel) : List (List Stmt) → Path (List Var) Event
  | [] => .skip
  | arm :: arms => .choice (.within cutBack (ExecAll ks arm)) (ExecArm ks arms)

end

end Paths

/-! ## What the walk does not look at -/

mutual

/-- The names of which the value may be a view. -/
def viewed : Views.Expr → List String
  | .external | .literal => []
  | .name x => [x]
  | .slice b | .move b | .paren b => viewed b
  | .index k b => if k.byref then viewed b else []
  | .copy k e => if k == .array && e.isName then [] else viewed e
  | .call k args => if k.byref then viewedAll args else []

def viewedAll : List Views.Expr → List String
  | [] => []
  | e :: es => viewed e ++ viewedAll es

end

mutual

/-- The names a statement gives a value, with the value. -/
def aliases : Stmt → List (String × Views.Expr)
  | .bind x _ _ value => (value.map fun e => (x, e)).toList
  | .assign (.name x) value => [(x, value)]
  | .assign _ _ => []
  | .call args outs => outs.map fun o => (o.name, .call o.kind (args.map Arg.value))
  | .other | .ret | .brk | .cont => []
  | .fan _ body | .eachField _ body | .forever body | .block body => aliasesAll body
  | .forC init _ incr body => aliasesAll init ++ aliasesAll incr ++ aliasesAll body
  | .ite thn els => aliasesAll thn ++ aliasesAll els
  | .matchOn arms => aliasesArms arms

def aliasesAll : List Stmt → List (String × Views.Expr)
  | [] => []
  | s :: ss => aliases s ++ aliasesAll ss

def aliasesArms : List (List Stmt) → List (String × Views.Expr)
  | [] => []
  | arm :: arms => aliasesAll arm ++ aliasesArms arms

end

/-- `x` is made a view of what `y` is. -/
def Gives (A : List (String × Views.Expr)) (x y : String) : Prop := ∃ e, (x, e) ∈ A ∧ y ∈ viewed e

/-- `x` was made a view of the storage, directly or through other names. -/
def Aliases (A : List (String × Views.Expr)) (x : String) (s : Storage) : Prop :=
  ∃ h, s.home? = some h ∧ Relation.TransGen (Gives A) x h

/-- `x` is the name of the storage, or was made a view of it. -/
def Reaches (A : List (String × Views.Expr)) (x : String) (s : Storage) : Prop :=
  ∃ h, s.home? = some h ∧ Relation.ReflTransGen (Gives A) x h

/-- Some statement of the list declares a variable. -/
def declares (ss : List Stmt) : Bool :=
  ss.any fun s => match s with
    | .bind _ _ _ _ | .call _ _ => true
    | _ => false

/-- The column is in the `(writes)` of the innermost kernel or of one around it. -/
def Settled (X : Context) (c : String) : List Kernel → Prop
  | [] => True
  | k :: ks => k.writes.contains c = true ∨ X.colIsDeclaredWrite c ks = true

/-- The walk lets an assignment to the variable or to an element of it pass. -/
structure Passes (X : Context) (ks : List Kernel) (d : Decl) : Prop where
  notConst : X.constArray d.name = false
  borrowed : d.borrowed = true → X.colIsDeclaredWrite d.name ks = true
  settled : d.isParam = true → Settled X d.name ks

/-- What writes are to be like, and which kernels may stand in a body, such that the walk keeps the
writes good that go by the name of the storage. -/
structure Rule (X : Context) where
  good : List Kernel → Storage → Prop
  fan : Kernel → Prop
  other : ∀ ks, good ks .other
  direct : ∀ ks d, ks.length ≤ stackSize → (∀ k ∈ ks, fan k) → Passes X ks d → good ks d.storage

section Spares

variable {X : Context} (R : Rule X) (A : List (String × Views.Expr)) (ks : List Kernel)

/-- The writes of an assignment that go by another name than that of the storage. -/
def SparesTarget : Target → Prop
  | .name x => ∀ s, Aliases A x s → R.good ks s
  | .elem b =>
    match b.leftmost with
    | some x => ∀ s, Aliases A x s → R.good ks s
    | none => ∀ y ∈ viewed b, ∀ s, Reaches A y s → R.good ks s
  | .field root field _ => (∀ s, Aliases A root s → R.good ks s) ∧
      R.good ks (qualified ks root field)

/-- The writes of a call: to its in-out arguments and to its targets. -/
def SparesCall (args : List Arg) (outs : List Out) : Prop :=
  (∀ a ∈ args, a.inOut = true → ∀ y ∈ viewed a.value, ∀ s, Reaches A y s → R.good ks s) ∧
    ∀ o ∈ outs, o.isNew = false → ∀ s, Reaches A o.name s → R.good ks s

end Spares

section Spares

variable {X : Context} (R : Rule X) (A : List (String × Views.Expr))

mutual

/-- Every write the walk does not look at is good, kernels are nested at most as deep as the stack
is large, and no increment declares a variable. -/
def Spares (ks : List Kernel) : Stmt → Prop
  | .assign t _ => SparesTarget R A ks t
  | .call args outs => SparesCall R A ks args outs
  | .bind _ _ _ _ | .other | .ret | .brk | .cont => True
  | .fan k body => ks.length < stackSize ∧ R.fan k ∧ SparesAll (k :: ks) body
  | .eachField _ body | .forever body | .block body => SparesAll ks body
  | .forC init _ incr body =>
    declares incr = false ∧ SparesAll ks init ∧ SparesAll ks incr ∧ SparesAll ks body
  | .ite thn els => SparesAll ks thn ∧ SparesAll ks els
  | .matchOn arms => SparesArms ks arms

def SparesAll (ks : List Kernel) : List Stmt → Prop
  | [] => True
  | s :: ss => Spares ks s ∧ SparesAll ks ss

def SparesArms (ks : List Kernel) : List (List Stmt) → Prop
  | [] => True
  | arm :: arms => SparesAll ks arm ∧ SparesArms ks arms

end

end Spares

end Arche.Semantic.Writes
