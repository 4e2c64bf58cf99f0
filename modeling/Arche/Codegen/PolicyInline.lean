import Arche.Lib.Emitters
import Arche.Semantic.Policies

/-!
# Failure policies expanded in place

A failure policy is a macro: `emit_policy_inline` pushes a scope with its parameters on the scopes
of the body that has the operation, emits the statements of the policy, and pops the scope. The
fallible operations of the policy are expanded in the same way, each by the policy `cg_policy_for`
or `cg_insert_handler` gives for it there.

`callPolicy` is what an expansion stands for: the same code, emitted as for a function of its own,
that sees none of the variables and loops around it. `Policy.uses` lists where the two can part: the
names of a policy that are not its own, its jumps, and its own operations.
-/

namespace Arche.Codegen.PolicyInline

open Arche.Lib
open Arche.Semantic.Bounds (Category Default)

/-! ## Policies -/

/-- An expression of a policy body. `divmod` is `/` or `%`, on `i32` or not, with the policy that is
written after it; `elided` is set where the bounds are proved. `length x` is `x.length`. -/
inductive Expr
  | literal (value : Int)
  | string (value : String)
  | name (name : String)
  | length (name : String)
  | binary (op : String) (left right : Expr)
  | divmod (op : String) (i32 : Bool) (policy : Option String) (left right : Expr)
  | index (elided : Bool) (policy : Option String) (base index : Expr)
  | slice (elided : Bool) (policy : Option String) (base lo hi : Expr)
  | insert (pool : String) (handler : Option String) (values : List Expr)
  | call (callee : String) (args : List Expr)

/-- A statement of a policy body. `compound` is `/=` or `%=` on a name, `store` an assignment to an
element. A `forLoop` has at most one statement in `init` and in `incr`; `loop` is one with neither.
-/
inductive Stmt
  | bind (name : String) (value : Expr)
  | assign (name : String) (value : Expr)
  | compound (name op : String) (i32 : Bool) (value : Expr)
  | store (elided : Bool) (policy : Option String) (base index value : Expr)
  | expr (e : Expr)
  | ite (cond : Expr) (thn els : List Stmt)
  | block (body : List Stmt)
  | forLoop (init : List Stmt) (cond : Expr) (incr body : List Stmt)
  | loop (cond : Expr) (body : List Stmt)
  | brk
  | cont
  | ret

/-- A `@policy(category)` declaration. -/
structure Policy where
  name : String
  category : Category
  params : List String
  body : List Stmt

/-- `m := message; log_be_emit(LOG_ERR, m, m.length); _exit(134);` -/
def panicWith (message : String) : List Stmt :=
  [.bind "m" (.string message),
    .expr (.call "log_be_emit" [.name "LOG_ERR", .name "m", .length "m"]),
    .expr (.call "_exit" [.literal 134])]

/-- The policies of core/core.arche, which stands before every program. -/
def corePolicies : List Policy :=
  [⟨"abort", .bounds, ["len", "i"],
      [.ite (.binary "||" (.binary "<" (.name "i") (.literal 0))
          (.binary ">=" (.name "i") (.name "len")))
        (panicWith "arche: index out of bounds\n") []]⟩,
    ⟨"clamp", .bounds, ["len", "i"],
      [.ite (.binary "<" (.name "i") (.literal 0)) [.assign "i" (.literal 0)] [],
        .ite (.binary ">=" (.name "i") (.name "len"))
          [.assign "i" (.binary "-" (.name "len") (.literal 1))] []]⟩,
    ⟨"wrap", .bounds, ["len", "i"],
      [.assign "i" (.divmod "%" true none
        (.binary "+" (.divmod "%" true none (.name "i") (.name "len")) (.name "len"))
        (.name "len"))]⟩,
    ⟨"undefined", .bounds, ["len", "i"], []⟩,
    ⟨"zero", .divide, ["a", "b"],
      [.ite (.binary "==" (.name "b") (.literal 0))
        [.assign "a" (.literal 0), .assign "b" (.literal 1)] []]⟩,
    ⟨"abort", .divide, ["a", "b"],
      [.ite (.binary "==" (.name "b") (.literal 0)) (panicWith "arche: divide by zero\n") []]⟩,
    ⟨"undefined", .divide, ["a", "b"], []⟩,
    ⟨"reject", .pool, ["count", "cap", "ok"],
      [.ite (.binary ">=" (.name "count") (.name "cap")) [.assign "ok" (.literal 0)] []]⟩,
    ⟨"abort", .pool, ["count", "cap"],
      [.ite (.binary ">=" (.name "count") (.name "cap")) (panicWith "arche: pool full\n") []]⟩]

/-- A fallible operation, with what is written of its policy. -/
inductive Op
  | bounds (policy : Option String)
  | divide (policy : Option String)
  | insert (pool : String) (handler : Option String)
deriving DecidableEq, Repr

def Op.category : Op → Category
  | .bounds _ => .bounds
  | .divide _ => .divide
  | .insert _ _ => .pool

/-- How many operands the policy is given: `(len, i)`, `(a, b)` or `(count, cap, ok, slot)`. -/
def Op.operands : Op → Nat
  | .bounds _ | .divide _ => 2
  | .insert _ _ => 4

/-- What the expansion of policies reads of a program: the `--unchecked` flag, the policies it
declares, the `@default` directives, the pools with their `?name`, and the value constants. -/
structure Program where
  unchecked : Bool
  user : List Policy
  defaults : List Default
  pools : List (String × Option String)
  consts : List String

namespace Program

variable (P : Program)

def policies : List Policy := corePolicies ++ P.user

/-- `find_policy_decl`. -/
def findPolicyDecl (name : String) (c : Category) : Option Policy :=
  P.policies.find? fun p => p.category == c && p.name == name

/-- `cg_program_default`. -/
def cgProgramDefault (inFunc : Bool) (c : Category) : Option String :=
  (P.defaults.find? fun d => d.func == inFunc && d.category == c).map Default.policy

/-- The last resort of `cg_policy_for`. -/
def baseline (inFunc : Bool) : Category → String
  | .divide => if inFunc then "zero" else "abort"
  | _ => if inFunc then "clamp" else "abort"

def cgPolicyFor (inFunc : Bool) (explicit : Option String) (c : Category) : String :=
  match explicit with
  | some name => name
  | none =>
    if P.unchecked then "undefined" else (P.cgProgramDefault inFunc c).getD (baseline inFunc c)

/-- `pool_overflow_policy`. -/
def poolOverflowPolicy (pool : String) : Option String :=
  P.pools.findSome? fun p => if p.1 = pool then p.2 else none

def cgInsertHandler (pool : String) (handler : Option String) : String :=
  match handler.or (P.poolOverflowPolicy pool) with
  | some name => name
  | none => (P.cgProgramDefault false .pool).getD "reject"

/-- The name `emit_policy_inline` is called with. `reject` is not expanded. -/
def policyName (inFunc : Bool) : Op → Option String
  | .bounds policy => some (P.cgPolicyFor inFunc policy .bounds)
  | .divide policy => some (P.cgPolicyFor inFunc policy .divide)
  | .insert pool handler =>
    if P.cgInsertHandler pool handler = "reject" then none
    else some (P.cgInsertHandler pool handler)

/-- The policy that is expanded for an operation, in a body that is a `func` or not. -/
def resolve (inFunc : Bool) (op : Op) : Option Policy :=
  (P.policyName inFunc op).bind fun name => P.findPolicyDecl name op.category

theorem mem_of_resolve {inFunc : Bool} {op : Op} {p : Policy} (h : P.resolve inFunc op = some p) :
    p ∈ P.policies := by
  obtain ⟨name, -, hfind⟩ := Option.bind_eq_some_iff.mp h
  exact List.mem_of_find?_eq_some hfind

end Program

/-! ## Code generation -/

/-- A value scope. `level` counts the expansions that were open when it was pushed: it tells whose
the names are. -/
structure Scope where
  level : Nat
  names : List String
deriving DecidableEq, Repr

def Scope.find (n : String) (s : Scope) : Option Nat := if n ∈ s.names then some s.level else none

/-- `ctx->scopes`, which are never none while a body is emitted, the loops a `break` or `continue`
is looked up in, and how many expansions are open. -/
structure Ctx where
  top : Scope
  below : List Scope
  loops : List Nat
  level : Nat
deriving DecidableEq, Repr

namespace Ctx

/-- `find_value`: whose variable a name is. -/
def findValue (c : Ctx) (n : String) : Option Nat := (c.top :: c.below).findSome? (Scope.find n)

/-- `add_value`. -/
def addValues (ns : List String) (c : Ctx) : Ctx :=
  { c with top := { c.top with names := ns ++ c.top.names } }

/-- `push_value_scope`. -/
def pushScope (c : Ctx) : Ctx := { c with top := ⟨c.level, []⟩, below := c.top :: c.below }

/-- `pop_value_scope`. -/
def popScope (c : Ctx) : Ctx :=
  match c.below with
  | [] => c
  | s :: rest => { c with top := s, below := rest }

def pushLoop (c : Ctx) : Ctx := { c with loops := c.level :: c.loops }

def popLoop (c : Ctx) : Ctx := { c with loops := c.loops.tail }

end Ctx

/-- What a name is in generated code: a variable of the body that is `level` expansions deep, or
what the program declares under the name. -/
inductive Place
  | var (level : Nat) (name : String)
  | declared (name : String)
deriving DecidableEq, Repr

/-- Where a `return` goes: out of the function that is emitted, or out of the policy. -/
inductive Target
  | function
  | policy
deriving DecidableEq, Repr

/-- An instruction. `operand` and `result` copy an operand into a parameter and back. -/
inductive Instr
  | literal (value : Int)
  | string (value : String)
  | constant (name : String)
  | load (p : Place)
  | store (p : Place)
  | alloca (level : Nat) (name : String)
  | operand (level : Nat) (param : String)
  | result (level : Nat) (param : String)
  | compute (op : String)
  | call (callee : String) (args : Nat)
  | label (name : String)
  | leaveLoop (loop : Option Nat)
  | nextTurn (loop : Option Nat)
  | ret (target : Target)
deriving DecidableEq, Repr

def Ctx.place (c : Ctx) (n : String) : Place :=
  match c.findValue n with
  | some level => .var level n
  | none => .declared n

/-- Emits code whatever the state is. -/
def emit (is : List Instr) : Emitter Ctx Instr := .tell fun _ => is

section Generate

-- the program, where a `return` goes, and the expansion of an operation
variable (P : Program) (target : Target) (expand : Op → Emitter Ctx Instr)

/-- The NAME case of `codegen_expression`: a value constant is found before a variable. -/
def readName (n : String) : Emitter Ctx Instr :=
  .tell fun c => if n ∈ P.consts then [.constant n] else [.load (c.place n)]

/-- An access to a variable, or to what the program declares. -/
def access (instr : Place → Instr) (n : String) : Emitter Ctx Instr :=
  .tell fun c => [instr (c.place n)]

/-- The new variable of `n := …`. -/
def bindName (n : String) : Emitter Ctx Instr :=
  .all [.tell fun c => [.alloca c.level n], .modify (Ctx.addValues [n])]

mutual

/-- `codegen_expression`. -/
def Expr.gen : Expr → Emitter Ctx Instr
  | .literal v => emit [.literal v]
  | .string s => emit [.string s]
  | .name n => readName P n
  | .length n => .all [readName P n, emit [.compute "length"]]
  | .binary op l r => .all [l.gen, r.gen, emit [.compute op]]
  | .divmod op i32 policy l r =>
    .all [l.gen, r.gen, if i32 then expand (.divide policy) else emit [], emit [.compute op]]
  | .index elided policy b i =>
    .all [b.gen, i.gen, if elided then emit [] else expand (.bounds policy),
      emit [.compute "element"]]
  | .slice elided policy b lo hi =>
    .all [b.gen, lo.gen, hi.gen,
      -- the same policy for each end and for the length
      if elided then emit []
      else .all [expand (.bounds policy), expand (.bounds policy), expand (.bounds policy)],
      emit [.compute "slice"]]
  | .insert pool handler values =>
    .all [genList values, expand (.insert pool handler), emit [.call "arche_insert" values.length]]
  | .call callee args => .all [genList args, emit [.call callee args.length]]

def genList : List Expr → Emitter Ctx Instr
  | [] => emit []
  | e :: es => .all [e.gen, genList es]

end

mutual

/-- `codegen_statement`. An `if` or a block opens no scope. -/
def Stmt.gen : Stmt → Emitter Ctx Instr
  | .bind n value => .all [value.gen P expand, bindName n]
  | .assign n value => .all [value.gen P expand, access .store n]
  | .compound n op i32 value =>
    .all [value.gen P expand, access .load n, if i32 then expand (.divide none) else emit [],
      emit [.compute op], access .store n]
  | .store elided policy b i value =>
    .all [value.gen P expand, b.gen P expand, i.gen P expand,
      if elided then emit [] else expand (.bounds policy), emit [.compute "store"]]
  | .expr e => e.gen P expand
  | .ite cond thn els =>
    .all [cond.gen P expand, emit [.label "then"], genStmts thn, emit [.label "else"], genStmts els,
      emit [.label "end"]]
  | .block body => genStmts body
  | .forLoop init cond incr body =>
    .within Ctx.pushScope Ctx.popScope (.all [genStmts init,
      .within Ctx.pushLoop Ctx.popLoop (.all [emit [.label "loop"], cond.gen P expand,
        emit [.label "body"], genStmts body, emit [.label "next"], genStmts incr,
        emit [.label "exit"]])])
  | .loop cond body =>
    .within Ctx.pushLoop Ctx.popLoop (.all [emit [.label "loop"], cond.gen P expand,
      emit [.label "body"], .within Ctx.pushScope Ctx.popScope (genStmts body),
      emit [.label "exit"]])
  | .brk => .tell fun c => [.leaveLoop c.loops.head?]
  | .cont => .tell fun c => [.nextTurn c.loops.head?]
  | .ret => emit [.ret target]

def genStmts : List Stmt → Emitter Ctx Instr
  | [] => emit []
  | s :: ss => .all [s.gen, genStmts ss]

end

/-- The parameters that get an operand. -/
def Policy.bound (p : Policy) (op : Op) : List String := p.params.take op.operands

/-- The code of an expansion, between the push of its scope and the pop. -/
def Policy.gen (p : Policy) (op : Op) : Emitter Ctx Instr :=
  .all [.tell fun c => (p.bound op).flatMap fun n => [.alloca c.level n, .operand c.level n],
    genStmts P target expand p.body,
    .tell fun c => (p.bound op).map fun n => .result c.level n]

end Generate

/-- The scope of an expansion on the scopes around it. -/
def Ctx.open (ns : List String) (c : Ctx) : Ctx :=
  { c with top := ⟨c.level + 1, ns⟩, below := c.top :: c.below, level := c.level + 1 }

def Ctx.close (c : Ctx) : Ctx := { c.popScope with level := c.level - 1 }

/-- The scope of a function of its own, `level` expansions deep. -/
def Ctx.alone (ns : List String) (level : Nat) : Ctx := ⟨⟨level, ns⟩, [], [], level⟩

section Expand

variable (P : Program) (inFunc : Bool)

/-- `emit_policy_inline`, with room on the stack for `fuel` expansions in one another. -/
def emitPolicyInline : Nat → Op → Emitter Ctx Instr
  | 0, _ => fun _ => none
  | fuel + 1, op =>
    match P.resolve inFunc op with
    | none => emit []
    | some p =>
      .within (Ctx.open (p.bound op)) Ctx.close (p.gen P .function (emitPolicyInline fuel) op)

/-- A call of the policy: its code as that of a function of its own, with its operations calls too.
-/
def callPolicy : Nat → Op → Emitter Ctx Instr
  | 0, _ => fun _ => none
  | fuel + 1, op =>
    match P.resolve inFunc op with
    | none => emit []
    | some p => fun c =>
      (p.gen P .policy (callPolicy fuel) op (.alone (p.bound op) (c.level + 1))).map
        fun r => (r.1, c)

end Expand

/-! ## What a body uses that is not its own -/

/-- A use a policy body makes of what is around it: a name that is no variable of its own, a `break`
or `continue` in no loop of its own, a `return`, and an operation, with the scopes and loops of the
policy where it is. -/
inductive Use
  | name (n : String)
  | jump
  | ret
  | applies (own : Ctx) (op : Op)

section Uses

variable (P : Program)

def Ctx.freeUses (own : Ctx) (n : String) : List Use :=
  if (own.findValue n).isSome then [] else [.name n]

def Ctx.readUses (own : Ctx) (n : String) : List Use :=
  if n ∈ P.consts then [] else own.freeUses n

def Ctx.jumpUses (own : Ctx) : List Use := if own.loops = [] then [.jump] else []

mutual

def Expr.uses (own : Ctx) : Expr → List Use
  | .literal _ | .string _ => []
  | .name n | .length n => own.readUses P n
  | .binary _ l r => l.uses own ++ r.uses own
  | .divmod _ i32 policy l r =>
    l.uses own ++ r.uses own ++ if i32 then [.applies own (.divide policy)] else []
  | .index elided policy b i =>
    b.uses own ++ i.uses own ++ if elided then [] else [.applies own (.bounds policy)]
  | .slice elided policy b lo hi =>
    b.uses own ++ lo.uses own ++ hi.uses own ++
      if elided then [] else [.applies own (.bounds policy)]
  | .insert pool handler values => usesList own values ++ [.applies own (.insert pool handler)]
  | .call _ args => usesList own args

def usesList (own : Ctx) : List Expr → List Use
  | [] => []
  | e :: es => e.uses own ++ usesList own es

end

mutual

/-- The names a statement leaves in the scope it is in. -/
def Stmt.declared : Stmt → List String
  | .bind n _ => [n]
  | .ite _ thn els => declaredAll els ++ declaredAll thn
  | .block body => declaredAll body
  | .assign _ _ | .compound _ _ _ _ | .store _ _ _ _ _ | .expr _ | .forLoop _ _ _ _ | .loop _ _
  | .brk | .cont | .ret => []

def declaredAll : List Stmt → List String
  | [] => []
  | s :: ss => declaredAll ss ++ s.declared

end

mutual

def Stmt.uses (own : Ctx) : Stmt → List Use
  | .bind _ value => value.uses P own
  | .assign n value => value.uses P own ++ own.freeUses n
  | .compound n _ i32 value =>
    value.uses P own ++ own.freeUses n ++ if i32 then [.applies own (.divide none)] else []
  | .store elided policy b i value =>
    value.uses P own ++ b.uses P own ++ i.uses P own ++
      if elided then [] else [.applies own (.bounds policy)]
  | .expr e => e.uses P own
  | .ite cond thn els =>
    cond.uses P own ++ usesAll own thn ++ usesAll (own.addValues (declaredAll thn)) els
  | .block body => usesAll own body
  | .forLoop init cond incr body =>
    usesAll own.pushScope init ++
      cond.uses P (own.pushScope.addValues (declaredAll init)).pushLoop ++
      usesAll (own.pushScope.addValues (declaredAll init)).pushLoop body ++
      usesAll ((own.pushScope.addValues (declaredAll init)).pushLoop.addValues (declaredAll body))
        incr
  | .loop cond body => cond.uses P own.pushLoop ++ usesAll own.pushLoop.pushScope body
  | .brk | .cont => own.jumpUses
  | .ret => [.ret]

def usesAll (own : Ctx) : List Stmt → List Use
  | [] => []
  | s :: ss => s.uses own ++ usesAll (own.addValues s.declared) ss

end

mutual

/-- The operations of an expression that have a policy expanded. -/
def Expr.ops : Expr → List Op
  | .literal _ | .string _ | .name _ | .length _ => []
  | .binary _ l r => l.ops ++ r.ops
  | .divmod _ i32 policy l r => l.ops ++ r.ops ++ if i32 then [.divide policy] else []
  | .index elided policy b i => b.ops ++ i.ops ++ if elided then [] else [.bounds policy]
  | .slice elided policy b lo hi =>
    b.ops ++ lo.ops ++ hi.ops ++ if elided then [] else [.bounds policy]
  | .insert pool handler values => opsList values ++ [.insert pool handler]
  | .call _ args => opsList args

def opsList : List Expr → List Op
  | [] => []
  | e :: es => e.ops ++ opsList es

end

mutual

def Stmt.ops : Stmt → List Op
  | .bind _ value | .assign _ value | .expr value => value.ops
  | .compound _ _ i32 value => value.ops ++ if i32 then [.divide none] else []
  | .store elided policy b i value =>
    value.ops ++ b.ops ++ i.ops ++ if elided then [] else [.bounds policy]
  | .ite cond thn els => cond.ops ++ opsAll thn ++ opsAll els
  | .block body => opsAll body
  | .forLoop init cond incr body => opsAll init ++ cond.ops ++ opsAll body ++ opsAll incr
  | .loop cond body => cond.ops ++ opsAll body
  | .brk | .cont | .ret => []

def opsAll : List Stmt → List Op
  | [] => []
  | s :: ss => s.ops ++ opsAll ss

end

/-- The uses of a policy that is expanded for `op`, `level` expansions deep. -/
def Policy.uses (p : Policy) (op : Op) (level : Nat) : List Use :=
  usesAll P (.alone (p.bound op) level) p.body

end Uses

end Arche.Codegen.PolicyInline
