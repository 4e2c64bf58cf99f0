import Mathlib.Algebra.Order.Ring.Int
import Mathlib.Logic.Basic

/-!
# The bounds prover of semantic.c

`bnd_check_stmt` walks a body with a list of facts about its variables and marks
the index and slice operations it proves in range: no failure policy is compiled
for these. This module embeds the facts (`Fact`, `Env`), where they come from
(`collectFacts`, `guardNeg`, `check`) and what they prove (`indexVerdict`,
`sliceVerdict`). It is the pass with `check_policies` set.
-/

namespace Arche.Semantic.Bounds

/-! ## The tree -/

/-- The properties `bnd_extent_base` takes for a length. -/
inductive Extent
  | length
  | capacity
  | count
deriving DecidableEq, Repr

/-- The operators the pass tells apart. An integer division is `wide` when it is not on 32 bits. -/
inductive Op
  | lt
  | lte
  | gt
  | gte
  | and
  | or
  | add
  | div (wide : Bool)
  | mod (wide : Bool)
  | other
deriving DecidableEq, Repr

/-- `!name` or, with `handler`, `?name`. -/
structure PolicyRef where
  handler : Bool
  name : String
deriving DecidableEq, Repr

/-- Expressions, as far as the pass tells them apart. `lit` is a token of decimal digits, `neg` a
unary minus, `extent x p` is `x.length`, `x.capacity` or `x.count`, `field x` any other field chain
on the name `x`. The base of an index or a slice is a `name`, an `extent` or `field` (a pool
column), or a computed value; `bare`: code generation has no length for it (an `#each_field` column,
a foreign pointer) and compiles no policy. `insert p vals` inserts `p { ... }`, `arrayLit` is an array or tuple
literal, and `node` any other node with its children. -/
inductive Expr
  | lit (n : Nat)
  | name (x : String)
  | extent (x : String) (p : Extent)
  | field (x : String)
  | neg (e : Expr)
  | binary (op : Op) (l r : Expr) (pol : Option PolicyRef)
  | index (base i : Expr) (rest : List Expr) (bare : Bool) (pol : Option PolicyRef)
  | slice (base : Expr) (lo hi : Option Expr) (bare : Bool) (pol : Option PolicyRef)
  | call (f : String) (args : List Expr)
  | insert (p : String) (vals : List Expr) (pol : Option PolicyRef)
  | arrayLit (es : List Expr)
  | node (es : List Expr)

/-- The type of a binding, written or inferred. -/
inductive BindType
  | scalar
  | array (n : Nat)
  | slice
deriving DecidableEq, Repr

inductive AssignOp
  | set
  | add
  | sub
  | mul
  | div (wide : Bool)
  | mod (wide : Bool)
deriving DecidableEq, Repr

/-- An out-target of a call: `x:` or the existing place `x`. -/
inductive Target
  | new (x : String)
  | place (x : String)
deriving DecidableEq, Repr

/-- Statements. `init` and `incr` of a `for` hold at most one statement; `for { ... }` has no
header. `callTo` is a proc call with an out-list or a multi-bind, `fan` an inline `each` or `map`
or an `#each_field`. -/
inductive Stmt
  | bind (x : String) (ty : BindType) (value : Option Expr)
  | assign (target : Expr) (op : AssignOp) (value : Expr)
  | forLoop (init : List Stmt) (cond : Option Expr) (incr body : List Stmt)
  | ite (cond : Expr) (thn els : List Stmt)
  | block (body : List Stmt)
  | matchOn (scrut : Option Expr) (arms : List (List Stmt))
  | callTo (targets : List Target) (value : Expr)
  | expr (e : Expr)
  | ret (es : List Expr)
  | brk
  | cont
  | run
  | fan (columns : List String) (body : List Stmt)

/-! ## Declarations around a body -/

inductive DeclKind
  | func
  | proc
  | map
  | system
  | each
deriving DecidableEq, Repr

inductive Category
  | bounds
  | pool
  | divide
deriving DecidableEq, Repr

/-- The type of a parameter: a sized array, a slice or anything else. -/
structure Param where
  name : String
  ty : BindType
deriving DecidableEq, Repr

/-- The declaration a body belongs to. `policy`: it is a `@policy` of that category. `user`:
`decl_is_user_code`. -/
structure Decl where
  kind : DeclKind
  params : List Param
  outParams : List Param
  policy : Option Category
  user : Bool
deriving DecidableEq, Repr

/-- A module-level array constant: its rows, and the length of a row when it is a matrix. -/
structure ConstArray where
  name : String
  rows : Nat
  stride : Nat
deriving DecidableEq, Repr

/-- An archetype with storage, `[capacity]P(init) ?overflow`. -/
structure Pool where
  name : String
  capacity : Nat
  init : Nat
  overflow : Option String
deriving DecidableEq, Repr

/-- What the pass looks up outside the body. `fold` is `semantic_try_const_int`. -/
structure Prog where
  consts : List ConstArray
  pools : List Pool
  fold : Expr → Option Int

def Prog.const? (P : Prog) (x : String) : Option ConstArray := P.consts.find? (·.name == x)

/-- `find_archetype`. -/
def Prog.pool? (P : Prog) (x : String) : Option Pool := P.pools.find? (·.name == x)

/-- `name_const_matrix`. -/
def Prog.matrix? (P : Prog) (x : String) : Option Nat :=
  (P.consts.find? fun c => c.name == x && decide (1 < c.stride)).map ConstArray.stride

/-! ## Literals and names -/

def intMax : Nat := 2147483647

/-- `atoi` on decimal digits: the value cut to 32 bits, after `strtol` saturates. -/
def atoi (n : Nat) : Int := (BitVec.ofNat 32 (min n (2 ^ 63 - 1))).toInt

/-- `bnd_lit_int`. -/
def litInt? : Expr → Option Nat
  | .lit n => if 0 ≤ atoi n then some (atoi n).toNat else none
  | _ => none

/-- `bnd_lit_int_signed`. -/
def litSigned? : Expr → Option Int
  | .lit n => some (atoi n)
  | .neg e => (litSigned? e).map (- ·)
  | _ => none

/-- `bnd_const_int`. -/
def constInt? (P : Prog) (e : Expr) : Option Nat :=
  match litInt? e with
  | some k => some k
  | none =>
    match P.fold e with
    | some v => if 0 ≤ v then some v.toNat else none
    | none => none

/-- `bnd_plain_name`. -/
def plainName? : Expr → Option String
  | .name x => some x
  | _ => none

/-- `bnd_extent_base`. -/
def extentBase? : Expr → Option String
  | .extent x _ => some x
  | _ => none

/-- The name at the root of a base that is no computed value. -/
def flatRoot? : Expr → Option String
  | .name x | .extent x _ | .field x => some x
  | _ => none

/-- The name a base starts with (`sv_name_expr_dup`). -/
def leftmost? : Expr → Option String
  | .name x | .extent x _ | .field x => some x
  | .index b _ _ _ _ | .slice b _ _ _ _ => leftmost? b
  | _ => none

/-! ## Facts -/

/-- `upper v b`: `v < b.length`; `minlen b n`: `n <= b.length`; `litub v k`: `v < k`;
`poolbound v`: `v` is below the extent of the pool a `@policy(pool)` handles. -/
inductive Fact
  | upper (v b : String)
  | nonneg (v : String)
  | minlen (b : String) (n : Nat)
  | litub (v : String) (k : Nat)
  | poolbound (v : String)
deriving DecidableEq, Repr

def Fact.var? : Fact → Option String
  | .upper v _ | .nonneg v | .litub v _ | .poolbound v => some v
  | .minlen _ _ => none

/-- What is known of an indexed name. `slice 0` is a slice of unknown length. -/
inductive BaseKind
  | unknown
  | sized (n : Nat)
  | slice (n : Nat)
deriving DecidableEq, Repr

/-- `BndEnv`. The newest local stands first. -/
structure Env where
  facts : List Fact
  locals : List (String × BaseKind)
  insertFlow : Bool
deriving DecidableEq, Repr

def maxFacts : Nat := 64

namespace Env

/-- `bnd_env_add`, with a limit on the number of facts. -/
def add (e : Env) (f : Fact) : Env :=
  if e.facts.length < maxFacts then { e with facts := e.facts ++ [f] } else e

def addMin (e : Env) (b : String) (n : Nat) : Env := if n = 0 then e else e.add (.minlen b n)

def addLitub (e : Env) (v : String) (k : Nat) : Env := if k = 0 then e else e.add (.litub v k)

/-- `bnd_local_add`. -/
def addLocal (e : Env) (x : String) (k : BaseKind) : Env :=
  if e.locals.length < maxFacts then { e with locals := (x, k) :: e.locals } else e

def kill (e : Env) (v : String) : Env := { e with facts := e.facts.filter (·.var? != some v) }

/-- `bnd_restore`: the facts of `e`, the locals seen since. -/
def restore (e e' : Env) : Env := { e with locals := e'.locals }

def isNonneg (e : Env) (v : String) : Bool := e.facts.contains (.nonneg v)

def isPoolbound (e : Env) (v : String) : Bool := e.facts.contains (.poolbound v)

/-- `bnd_proven`. -/
def proven (e : Env) (v b : String) : Bool := e.isNonneg v && e.facts.contains (.upper v b)

def litubOf (v : String) : Fact → Option Nat
  | .litub w k => if w == v then some k else none
  | _ => none

/-- `bnd_litub`: the smallest literal bound, `INT_MAX` when there is none. -/
def litub (e : Env) (v : String) : Nat := (e.facts.filterMap (litubOf v)).foldl min intMax

def minlenOf (b : String) : Fact → Option Nat
  | .minlen c n => if c == b then some n else none
  | _ => none

/-- `bnd_minlen_ok`. -/
def minlenOk (e : Env) (b : String) (k : Int) : Bool :=
  (e.facts.filterMap (minlenOf b)).any fun n => decide (k < n)

/-- `bnd_pool_minlive`. -/
def minlive (e : Env) (b : String) : Nat := (e.facts.filterMap (minlenOf b)).foldl max 0

end Env

/-! ## Where facts come from -/

/-- `bnd_is_pool_extent_param`. -/
def isExtentParam (d : Decl) (x : String) : Bool :=
  d.policy == some .pool && (d.params.take 2).any (·.name == x)

/-- `v < r`: four facts it may give. -/
def collectLt (P : Prog) (d : Decl) (l r : Expr) (e : Env) : Env :=
  let e₁ := match plainName? l, extentBase? r with
    | some v, some b => e.add (.upper v b)
    | _, _ => e
  let e₂ := match plainName? l, constInt? P r with
    | some v, some k => e₁.addLitub v k
    | _, _ => e₁
  let e₃ := match plainName? l, plainName? r with
    | some v, some x => if isExtentParam d x then e₂.add (.poolbound v) else e₂
    | _, _ => e₂
  match litInt? l, extentBase? r with
  | some k, some b => e₃.addMin b (k + 1)
  | _, _ => e₃

/-- `l > r` and, with `orEq`, `l >= r`. -/
def collectGt (orEq : Bool) (l r : Expr) (e : Env) : Env :=
  let e₁ := match extentBase? l, litInt? r with
    | some b, some k => e.addMin b (if orEq then k else k + 1)
    | _, _ => e
  match plainName? l, litInt? r with
  | some v, some _ => e₁.add (.nonneg v)
  | _, _ => e₁

/-- `bnd_collect_facts`. -/
def collectFacts (P : Prog) (d : Decl) : Expr → Env → Env
  | .binary .and l r _, e => collectFacts P d r (collectFacts P d l e)
  | .binary .lt l r _, e => collectLt P d l r e
  | .binary .gt l r _, e => collectGt false l r e
  | .binary .gte l r _, e => collectGt true l r e
  | _, e => e

/-- `bnd_guard_neg` on one comparison. -/
def guardCmp (op : Op) (l r : Expr) (e : Env) : Env × Bool :=
  match op, extentBase? l, litInt? r with
  | .lt, some b, some k => (e.addMin b k, true)
  | .lte, some b, some k => (e.addMin b (k + 1), true)
  | _, _, _ =>
    match op, plainName? l with
    | .lt, some v => if litInt? r = some 0 then (e.add (.nonneg v), true) else (e, false)
    | .gte, some v =>
      match extentBase? r, litInt? r with
      | some b, _ => (e.add (.upper v b), true)
      | none, some k => (e.addLitub v k, true)
      | none, none => (e, false)
    | .gt, some v =>
      match extentBase? r, litInt? r with
      | some b, _ => (e.add (.upper v b), true)
      | none, some k => (e.addLitub v (k + 1), true)
      | none, none => (e, false)
    | _, _ => (e, false)

/-- `bnd_guard_neg`: the facts of the negation, and whether the form was recognized. -/
def guardNeg : Expr → Env → Env × Bool
  | .binary .or l r _, e =>
    ((guardNeg r (guardNeg l e).1).1, (guardNeg l e).2 || (guardNeg r (guardNeg l e).1).2)
  | .binary op l r _, e => guardCmp op l r e
  | _, e => (e, false)

def Stmt.isExit : Stmt → Bool
  | .ret _ | .brk | .cont => true
  | _ => false

/-- `bnd_guard_exit`: an exit among the statements of the `if`, in either branch, and a condition
whose negation is recognized. -/
def guardExit? (cond : Expr) (thn els : List Stmt) (e : Env) : Option Env :=
  if (thn ++ els).any Stmt.isExit && (guardNeg cond e).2 then some (guardNeg cond e).1 else none

/-! ## What is known of a base -/

def BindType.kind? : BindType → Option BaseKind
  | .array n => some (.sized n)
  | .slice => some (.slice 0)
  | .scalar => none

/-- `bnd_param_kind`: the first parameter of that name decides. -/
def paramKind? (d : Decl) (x : String) : Option BaseKind :=
  ((d.params ++ d.outParams).find? (·.name == x)).bind fun p => p.ty.kind?

/-- `bnd_base_kind`. -/
def baseKind (P : Prog) (d : Decl) (e : Env) (x : String) : BaseKind :=
  match paramKind? d x with
  | some k => k
  | none =>
    match e.locals.find? (·.1 == x) with
    | some (_, k) => k
    | none => (P.const? x).elim .unknown fun c => .sized c.rows

/-- `bnd_expr_nonneg`. -/
def exprNonneg (e : Env) : Expr → Bool
  | .lit n => (litInt? (.lit n)).isSome
  | .name x => e.isNonneg x
  | .binary .add l r _ => exprNonneg e l && exprNonneg e r
  | _ => false

/-- `bnd_slice_literal`: the bounds of a slice of a base of length `n`, when both are literals or
omitted and in range. -/
def sliceLiteral? (n : Nat) (lo hi : Option Expr) : Option (Int × Int) :=
  match lo.elim (some 0) litSigned?, hi.elim (some (n : Int)) litSigned? with
  | some a, some b => if 0 ≤ a ∧ a ≤ b ∧ b ≤ n then some (a, b) else none
  | _, _ => none

/-- `bnd_static_slice_len`, `0` when unknown. -/
def staticSliceLen (P : Prog) (d : Decl) (e : Env) : Expr → Nat
  | .slice b lo hi _ _ =>
    match flatRoot? b with
    | none => 0
    | some x =>
      match baseKind P d e x with
      | .sized n | .slice n =>
        if n = 0 then 0 else ((sliceLiteral? n lo hi).map fun p => (p.2 - p.1).toNat).getD 0
      | .unknown => 0
  | _ => 0

/-! ## Verdicts -/

inductive Verdict
  | safe
  | oob
  | unproved
deriving DecidableEq, Repr

/-- The `kind` and `n` that `bnd_check_expr` hands to `bnd_policy_check` for an index. -/
inductive IndexKind
  | unknown
  | sized (n : Nat)
  | slice (n : Nat)
  | column (n : Nat)
deriving DecidableEq, Repr

def BaseKind.index : BaseKind → IndexKind
  | .unknown => .unknown
  | .sized n => .sized n
  | .slice n => .slice n

/-- The kind of a chained index: a base that starts with a matrix constant is taken for one of its
rows, a slice of a sized name with literal bounds has a known length. -/
def chainedKind (P : Prog) (d : Decl) (e : Env) (base : Expr) : IndexKind :=
  match (leftmost? base).bind P.matrix? with
  | some stride => .sized stride
  | none =>
    match base, leftmost? base with
    | .slice _ lo hi _ _, some x =>
      match baseKind P d e x with
      | .sized n => ((sliceLiteral? n lo hi).map fun p => IndexKind.sized (p.2 - p.1).toNat).getD
          .unknown
      | _ => .unknown
    | _, _ => .unknown

def indexKind (P : Prog) (d : Decl) (e : Env) : Expr → IndexKind
  | .name x => (baseKind P d e x).index
  | .extent x _ | .field x => (P.pool? x).elim .unknown fun p => .column p.init
  | base => chainedKind P d e base

/-- `bnd_policy_check` on a literal index. -/
def literalVerdict (e : Env) (k : IndexKind) (base : Option String) (i : Int) : Verdict :=
  let minlen := if base.any fun b => e.minlenOk b i then .safe else .unproved
  if k = .unknown then .unproved
  else if i < 0 then .oob
  else match k with
    | .sized n => if (n : Int) ≤ i then .oob else .safe
    | .slice n => if 0 < n then (if (n : Int) ≤ i then .oob else .safe) else minlen
    | .column n => if i < n then .safe else minlen
    | .unknown => .unproved

/-- `bnd_policy_check` on a variable index. -/
def variableVerdict (e : Env) (k : IndexKind) (base : Option String) (v : String) : Verdict :=
  if k = .unknown then .unproved
  else if base.any (e.proven v) then .safe
  else match k with
    | .sized n => if e.isNonneg v && decide (e.litub v ≤ n) then .safe else .unproved
    | .column n =>
      if decide (0 < n) && e.isNonneg v && decide (e.litub v ≤ n) then .safe
      else if e.isNonneg v && e.isPoolbound v then .safe else .unproved
    | _ => .unproved

/-- `bnd_policy_check` on an index of the given kind. -/
def indexVerdict (P : Prog) (d : Decl) (e : Env) (base i : Expr) : Verdict :=
  match litSigned? i with
  | some k => literalVerdict e (indexKind P d e base) (leftmost? base) k
  | none =>
    match plainName? i with
    | some v => variableVerdict e (indexKind P d e base) (leftmost? base) v
    | none => .unproved

/-- `bnd_policy_check` on a slice: the base is the name the expression starts with. -/
def sliceVerdict (P : Prog) (d : Decl) (e : Env) (base : Expr) (lo hi : Option Expr) : Verdict :=
  match (leftmost? base).elim .unknown (baseKind P d e) with
  | .sized n => if (sliceLiteral? n lo hi).isSome then .safe else .unproved
  | _ => .unproved

/-! ## The walk -/

mutual

/-- `bnd_body_has_delete`. -/
def Expr.hasDelete : Expr → Bool
  | .lit _ | .name _ | .extent _ _ | .field _ => false
  | .neg e => e.hasDelete
  | .binary _ l r _ => l.hasDelete || r.hasDelete
  | .index b i rest _ _ => b.hasDelete || i.hasDelete || anyDelete rest
  | .slice b lo hi _ _ => b.hasDelete || optDelete lo || optDelete hi
  | .call f args => f == "delete" || anyDelete args
  | .insert _ vals _ => anyDelete vals
  | .arrayLit es | .node es => anyDelete es

def anyDelete : List Expr → Bool
  | [] => false
  | e :: es => e.hasDelete || anyDelete es

def optDelete : Option Expr → Bool
  | none => false
  | some e => e.hasDelete

end

mutual

def Stmt.hasDelete : Stmt → Bool
  | .bind _ _ value => optDelete value
  | .assign target _ value => target.hasDelete || value.hasDelete
  | .forLoop init cond incr body =>
    stmtsDelete init || optDelete cond || stmtsDelete incr || stmtsDelete body
  | .ite cond thn els => cond.hasDelete || stmtsDelete thn || stmtsDelete els
  | .block body | .fan _ body => stmtsDelete body
  | .matchOn scrut arms => optDelete scrut || armsDelete arms
  | .callTo _ value => value.hasDelete
  | .expr e => e.hasDelete
  | .ret es => anyDelete es
  | .brk | .cont | .run => false

def stmtsDelete : List Stmt → Bool
  | [] => false
  | s :: ss => s.hasDelete || stmtsDelete ss

def armsDelete : List (List Stmt) → Bool
  | [] => false
  | arm :: arms => stmtsDelete arm || armsDelete arms

end

/-- The environment a body is walked from. -/
def startEnv (body : List Stmt) : Env := ⟨[], [], !stmtsDelete body⟩

/-- A bind or assign clause `x := v` of a `for` header whose value is taken for non-negative. -/
def initVar? (e : Env) : List Stmt → Option String
  | [.bind x _ (some v)] => if exprNonneg e v then some x else none
  | [.assign g _ v] => if exprNonneg e v then leftmost? g else none
  | _ => none

/-- The facts a `for` body starts with. -/
def loopEnv (P : Prog) (d : Decl) (e : Env) (init : List Stmt) (cond : Option Expr) : Env :=
  let e₁ := cond.elim e fun c => collectFacts P d c e
  (initVar? e init).elim e₁ fun x => e₁.add (.nonneg x)

/-- The marker "below the pool's extent" of a value in a `@policy(pool)` body. -/
def valuePoolbound (d : Decl) (e : Env) (v : Expr) : Bool :=
  d.policy == some .pool &&
    ((plainName? v).any e.isPoolbound || litSigned? v == some 0)

/-- The facts after `x := v` or, with `kill`, after `x = v`. A compound assignment is read like a
plain one. -/
def valueFacts (d : Decl) (kill : Bool) (x : String) (v : Option Expr) (e : Env) : Env :=
  let nn := v.any (exprNonneg e)
  let e₁ := if kill then e.kill x else e
  let e₂ := if nn then e₁.add (.nonneg x) else e₁
  if nn && v.any (valuePoolbound d e₂) then e₂.add (.poolbound x) else e₂

/-- The insert-flow fact after `insert(P { ... })`. -/
def insertFacts (P : Prog) (e : Env) : Expr → Env
  | .insert p _ _ =>
    match P.pool? p with
    | some q =>
      let cur := max (e.minlive p) q.init
      if e.insertFlow && decide (0 < q.capacity) && decide (cur < q.capacity) then
        e.addMin p (cur + 1)
      else e
    | none => e
  | _ => e

mutual

/-- `bnd_check_stmt`: the environment after a statement. The header clauses of a `for` are not
walked, nor are the bodies of a guard-exit; the branches of an `if` are one block. -/
def check (P : Prog) (d : Decl) (e : Env) : Stmt → Env
  | .bind x ty value =>
    let e₁ := valueFacts d false x value e
    match ty with
    | .array n => e₁.addLocal x (.sized n)
    | .slice => e₁.addLocal x (.slice (value.elim 0 (staticSliceLen P d e₁)))
    | .scalar => e₁
  | .assign target _ value =>
    match plainName? target with
    | none => e
    | some x =>
      let e₁ := valueFacts d true x (some value) e
      match baseKind P d e₁ x with
      | .slice _ => e₁.addLocal x (.slice (staticSliceLen P d e₁ value))
      | _ => e₁
  | .forLoop init cond _ body => e.restore (checkAll P d (loopEnv P d e init cond) body)
  | .ite cond thn els =>
    match guardExit? cond thn els e with
    | some e' => e'
    | none =>
      e.restore (checkAll P d (checkAll P d (collectFacts P d cond e) thn) els)
  | .block body => e.restore (checkAll P d e body)
  | .matchOn _ arms => checkArms P d e arms
  | .callTo _ value => insertFacts P e value
  | .expr _ | .ret _ | .brk | .cont | .run | .fan _ _ => e

def checkAll (P : Prog) (d : Decl) (e : Env) : List Stmt → Env
  | [] => e
  | s :: ss => checkAll P d (check P d e s) ss

def checkArms (P : Prog) (d : Decl) (e : Env) : List (List Stmt) → Env
  | [] => e
  | arm :: arms => checkArms P d (e.restore (checkAll P d e arm)) arms

end

end Arche.Semantic.Bounds
