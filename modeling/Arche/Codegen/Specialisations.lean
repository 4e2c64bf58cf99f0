import Arche.Codegen.Symbols

/-!
# Copies of procs for archetypes and callbacks

A proc with a parameter for an archetype, or for a proc or func, is not emitted as it stands. A call
of it goes to a copy for what the call passes (`HIR_EXPR_CALL` in `codegen_expression`), and the
copy waits in a list (`monomorph_enqueue`, `cb_enqueue`) until `drain_monomorph_worklist` emits it.
Its body may ask for more copies.

`Program.generate` is the emission of all definitions; `.undefined` is a read past the eight places
of `bound`. `Right` is what it should come to, and `Clean` the programs with which it does.
-/

namespace Arche.Codegen.Specialisations

open Symbols

/-! ## Programs -/

inductive ParamKind
  | value | archetype | callback
deriving DecidableEq, Repr

structure Param where
  name : Name
  kind : ParamKind
deriving DecidableEq, Repr

/-- What a call passes: a name by itself, or any other expression. -/
inductive Arg
  | name (n : Name)
  | other
deriving DecidableEq, Repr

structure Call where
  callee : Name
  args : List Arg
deriving DecidableEq, Repr

/-- A kernel may be a map with a form as a shader. -/
inductive DeclKind
  | func | proc | kernel (gpu : Bool)
deriving DecidableEq, Repr

/-- A definition of the program that has code, with its calls in the order in which their code is
generated. -/
structure Decl where
  name : Name
  kind : DeclKind
  params : List Param
  calls : List Call
deriving DecidableEq, Repr

/-- An archetype has a name, and the name of the shape it stands for. -/
structure Program where
  decls : List Decl
  archetypes : List (Name × Name)
  perUnit : Bool

/-- `archetype_param_index`. -/
def Decl.archetypeParamIndex (d : Decl) : Option Nat :=
  d.params.findIdx? fun p => decide (p.kind = .archetype)

/-- `has_callback_param`. -/
def Decl.hasCallbackParam (d : Decl) : Bool := d.params.any fun p => decide (p.kind = .callback)

/-- Such a proc is emitted in copies only. -/
def Decl.isParametric (d : Decl) : Bool :=
  decide (d.kind = .proc) && (d.archetypeParamIndex.isSome || d.hasCallbackParam)

/-- The definitions that are emitted as they stand. -/
def Program.plain (P : Program) : List Decl := P.decls.filter fun d => !d.isParametric

/-- `find_proc_decl`. -/
def Program.findProcDecl (P : Program) (n : Name) : Option Decl :=
  P.decls.find? fun d => decide (d.kind = .proc) && decide (d.name = n)

/-- `find_archetype_decl`. -/
def Program.findArchetypeDecl (P : Program) (n : Name) : Option Name := P.archetypes.lookup n

/-- The maps that `arche_gpu_embed` gives a C variable: not those with a name too long for it, and
only so many. -/
def Program.embedded (P : Program) : List Name :=
  (((P.plain.filter fun d => decide (d.kind = .kernel true)).map Decl.name).filter
    fun n => decide (n.length ≤ 200)).take 256

/-! ## Calls in a body -/

/-- What is bound in a body: to its callback parameters, and to its archetype parameter. -/
structure Env where
  callbacks : List (Name × Name)
  arch : Option (Name × Name)

def Env.empty : Env := ⟨[], none⟩

/-- `cb_resolve`. -/
def Env.cbResolve (e : Env) (n : Name) : Name := (e.callbacks.lookup n).getD n

/-- What is bound in the body of a copy. -/
def Decl.env (q : Decl) (arch : Option Name) (bound : List Name) : Env where
  callbacks := ((q.params.filter fun p => decide (p.kind = .callback)).map Param.name).zip bound
  arch := (q.params.find? fun p => decide (p.kind = .archetype)).bind fun p => arch.map (p.name, ·)

def Program.env (P : Program) : Definition → Env
  | .plain _ => .empty
  | .special p arch bound => ((P.findProcDecl p).map fun q => q.env arch bound).getD .empty

def Program.calls (P : Program) : Definition → List Call
  | .plain n => (P.plain.filter fun d => decide (d.name = n)).flatMap Decl.calls
  | .special p _ _ => ((P.findProcDecl p).map Decl.calls).getD []

/-- The name passed for the archetype parameter. -/
def Decl.archetypeArg (q : Decl) (args : List Arg) : Option Name :=
  match q.archetypeParamIndex.bind (args[·]?) with
  | some (.name n) => some n
  | _ => none

/-- `mono_arch`: the archetype with that name. -/
def Program.monoArch (P : Program) (q : Decl) (args : List Arg) : Option Name :=
  (q.archetypeArg args).bind P.findArchetypeDecl

/-- The names bound to callback parameters, if all are given by name. -/
def Env.bound (e : Env) : List Param → List Arg → Option (List Name)
  | [], _ => some []
  | p :: ps, args =>
    if p.kind = .callback then
      match args.head? with
      | some (.name n) => (e.bound ps args.tail).map (e.cbResolve n :: ·)
      | _ => none
    else e.bound ps args.tail

/-- The loop over the first eight parameters fills `bound`. -/
def Env.cbBound (e : Env) (q : Decl) (args : List Arg) : Option (List Name) :=
  if q.hasCallbackParam then e.bound (q.params.take 8) args else none

/-- With more than eight parameters `cb_mangle` goes on past `bound`, as long as it has room. -/
def Decl.manglesPast (q : Decl) (bound : List Name) : Prop :=
  8 < q.params.length ∧ (cbMangleLoop q.name bound).1 < 256

/-- A copy that binds a parameter after the eighth reads it past `bound`. -/
def Decl.bindsPast (q : Decl) (bound : List Name) : Prop :=
  (∃ p ∈ q.params.drop 8, p.kind = .callback) ∧ bound.length < 8

instance (q : Decl) (bound : List Name) : Decidable (q.manglesPast bound) :=
  inferInstanceAs (Decidable (_ ∧ _))

instance (q : Decl) (bound : List Name) : Decidable (q.bindsPast bound) :=
  inferInstanceAs (Decidable (_ ∧ _))

/-- The definition that a call goes to. -/
def Program.target (P : Program) (e : Env) (c : Call) : Definition :=
  match P.findProcDecl (e.cbResolve c.callee) with
  | none => .plain (e.cbResolve c.callee)
  | some q =>
    match e.cbBound q c.args with
    | some bound => .special q.name none bound
    | none =>
      match P.monoArch q c.args with
      | some a => .special q.name (some a) []
      | none => .plain q.name

/-! ## The work lists -/

/-- The two lists of copies that wait, each with the last one first, what is marked as emitted, and
the copies emitted so far. A waiting copy for callbacks has its symbol from `cb_mangle`. -/
structure State where
  monoPending : List (Name × Name)
  monoEmitted : List (Name × Name)
  cbPending : List (Name × List Name)
  cbEmitted : List Name
  copies : List Definition

def State.empty : State := ⟨[], [], [], [], []⟩

/-- `monomorph_enqueue`. -/
def State.monomorphEnqueue (s : State) (proc arch : Name) : State :=
  if (proc, arch) ∈ s.monoEmitted ∨ (proc, arch) ∈ s.monoPending then s
  else { s with monoPending := (proc, arch) :: s.monoPending }

/-- `cb_enqueue`. -/
def State.cbEnqueue (s : State) (proc : Name) (bound : List Name) : State :=
  if cbMangle proc bound ∈ s.cbPending.map (fun e => cbMangle e.1 e.2) ∨
      cbMangle proc bound ∈ s.cbEmitted then s
  else { s with cbPending := (proc, bound) :: s.cbPending }

def Program.askArchetype (P : Program) (q : Decl) (args : List Arg) (s : State) : State :=
  match P.monoArch q args with
  | some a => s.monomorphEnqueue q.name a
  | none => s

def Env.askCallbacks (e : Env) (q : Decl) (args : List Arg) (s : State) : Option State :=
  match e.cbBound q args with
  | some bound => if q.manglesPast bound then none else some (s.cbEnqueue q.name bound)
  | none => some s

/-- The copies that the code of a call asks for. -/
def Program.genCall (P : Program) (e : Env) (s : State) (c : Call) : Option State :=
  match P.findProcDecl (e.cbResolve c.callee) with
  | some q => e.askCallbacks q c.args (P.askArchetype q c.args s)
  | none => some s

def Program.genBody (P : Program) (e : Env) (calls : List Call) (s : State) : Option State :=
  calls.foldlM (P.genCall e) s

/-- `emit_monomorphized_proc`. -/
def Program.emitMono (P : Program) (m : Name × Name) (s : State) : Option State :=
  if m ∈ s.monoEmitted then some s
  else P.genBody (P.env (.special m.1 (some m.2) [])) (P.calls (.special m.1 (some m.2) []))
    { s with monoEmitted := m :: s.monoEmitted, copies := s.copies ++ [.special m.1 (some m.2) []] }

def Program.bindsPast (P : Program) (m : Name × List Name) : Bool :=
  (P.findProcDecl m.1).any fun q => decide (q.bindsPast m.2)

/-- `emit_callback_monomorphized_proc`. -/
def Program.emitCallback (P : Program) (m : Name × List Name) (s : State) : Option State :=
  if cbMangle m.1 m.2 ∈ s.cbEmitted then some s
  else if P.bindsPast m then none
  else P.genBody (P.env (.special m.1 none m.2)) (P.calls (.special m.1 none m.2))
    { s with cbEmitted := cbMangle m.1 m.2 :: s.cbEmitted,
             copies := s.copies ++ [.special m.1 none m.2] }

inductive Outcome
  | running
  | undefined
  | done (s : State)

/-- `drain_monomorph_worklist`: the inner loop over one list (that of callbacks second) or the
other. It takes a turn of a loop for each unit of fuel. -/
def Program.drain (P : Program) : Nat → Bool → State → Outcome
  | 0, _, _ => .running
  | fuel + 1, false, s =>
    match s.monoPending with
    | m :: rest =>
      match P.emitMono m { s with monoPending := rest } with
      | some s' => P.drain fuel false s'
      | none => .undefined
    | [] => P.drain fuel true s
  | fuel + 1, true, s =>
    match s.cbPending with
    | m :: rest =>
      match P.emitCallback m { s with cbPending := rest } with
      | some s' => P.drain fuel true s'
      | none => .undefined
    | [] => if s.monoPending = [] then .done s else P.drain fuel false s

/-- The definitions that are emitted as they stand, one after the other. -/
def Program.emitPlain (P : Program) : Option State :=
  P.plain.foldlM (fun s d => P.genBody .empty d.calls s) .empty

def Program.generate (P : Program) (fuel : Nat) : Outcome :=
  match P.emitPlain with
  | some s => P.drain fuel false s
  | none => .undefined

/-- All that is emitted. -/
def Program.emitted (P : Program) (s : State) : List Definition :=
  P.plain.map (fun d => .plain d.name) ++ s.copies

/-- `outer(hello)`, where `outer` passes its callback on to `inner`. -/
example :
    let P : Program :=
      { decls := [⟨"hello".toList, .proc, [], []⟩,
          ⟨"inner".toList, .proc, [⟨"cb".toList, .callback⟩], [⟨"cb".toList, []⟩]⟩,
          ⟨"outer".toList, .proc, [⟨"cb".toList, .callback⟩],
            [⟨"inner".toList, [.name "cb".toList]⟩]⟩,
          ⟨"entry".toList, .kernel false, [], [⟨"outer".toList, [.name "hello".toList]⟩]⟩],
        archetypes := [], perUnit := false }
    (match P.generate 5 with | .done s => (P.emitted s).map (Definition.symbol false) | _ => []) =
      ["hello".toList, "entry".toList, "__outer__hello".toList, "__inner__hello".toList] := by
  decide

/-! ## What it should come to -/

/-- The archetype that a name in a body stands for, its own parameter first. -/
def Env.archetype (P : Program) (e : Env) (n : Name) : Option Name :=
  match e.arch with
  | some (own, a) => if n = own then some a else P.findArchetypeDecl n
  | none => P.findArchetypeDecl n

/-- The archetype of the copy that a call needs, if one is to be given. -/
def Env.neededArch (P : Program) (e : Env) (q : Decl) (args : List Arg) : Option (Option Name) :=
  if q.archetypeParamIndex.isSome then ((q.archetypeArg args).bind (e.archetype P)).map some
  else some none

/-- The copy that a call needs: for the archetype and for all the callbacks it passes. -/
def Env.needs (P : Program) (e : Env) (q : Decl) (args : List Arg) : Option Definition :=
  (e.neededArch P q args).bind fun arch => (e.bound q.params args).map (.special q.name arch ·)

/-- A call to a proc that is emitted in copies. -/
structure Asks (P : Program) (d : Definition) (c : Call) (q : Decl) : Prop where
  mem : c ∈ P.calls d
  callee : P.findProcDecl ((P.env d).cbResolve c.callee) = some q
  parametric : q.isParametric = true

/-- No symbol stands for two definitions, or for two shaders, and each call of a proc that is
emitted in copies goes to the copy it needs, which is emitted once. -/
structure Right (P : Program) (out : List Definition) : Prop where
  symbols : (out.map (Definition.symbol P.perUnit)).Nodup
  calls : ∀ d ∈ out, ∀ c q, Asks P d c q →
    ∃ x, (P.env d).needs P q c.args = some x ∧ P.target (P.env d) c = x ∧ out.count x = 1
  shaders : (P.embedded.map shaderSymbol).Nodup

/-! ## When it does -/

/-- What is to be emitted: what needs no copies, and the copies that calls need. -/
inductive Needed (P : Program) : Definition → Prop
  | plain {d : Decl} : d ∈ P.plain → Needed P (.plain d.name)
  | copy {d x : Definition} {c : Call} {q : Decl} : Needed P d → Asks P d c q →
      (P.env d).needs P q c.args = some x → Needed P x

/-- A call that code generation handles: for an archetype by its own name, or for callbacks that are
all among the first eight parameters. It does not handle both in one call. -/
inductive Handled (P : Program) (e : Env) (q : Decl) (args : List Arg) : Prop
  | archetype {n a : Name} : q.hasCallbackParam = false → q.archetypeArg args = some n →
      P.findArchetypeDecl n = some a → (∀ b, e.arch = some (n, b) → b = a) → Handled P e q args
  | callbacks {bound : List Name} : q.archetypeParamIndex = none → q.hasCallbackParam = true →
      e.bound q.params args = some bound → (∀ p ∈ q.params.drop 8, p.kind ≠ .callback) →
      ¬ q.manglesPast bound → Handled P e q args

structure Clean (P : Program) : Prop where
  names : (P.plain.map Decl.name).Nodup
  apart : ∀ d d', Needed P d → Needed P d' → d ≠ d' → ¬ Clash P.perUnit d d'
  handled : ∀ d, Needed P d → ∀ c q, Asks P d c q → Handled P (P.env d) q c.args
  shaders : ∀ n ∈ P.embedded, ∀ m ∈ P.embedded, n ≠ m → ¬ SameIdent n m

end Arche.Codegen.Specialisations
