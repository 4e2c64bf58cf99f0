import Arche.Semantic.Bounds

/-!
# Failure policies: what the pass checks and what code generation takes

Every index, slice, division and insert has a failure policy. The pass of
`sem_check_policies` validates explicit policies and enforces the crash-free
flags; code generation resolves the policy again, by its own defaults
(`cg_policy_for`, `cg_insert_handler`). `sites` lists the operations of a body
with what the pass knows of each, `siteDiags` is what the pass reports for one,
and `resolve` what code generation compiles.

The flags promise that the two agree (`Exhaustive`). They do not
(`not_exhaustive_of_accepted`): the pass does not look at every operation.
`exhaustive_iff` says which operations have to be looked at by hand.
-/

namespace Arche.Semantic.Bounds

/-- The crash-free flags. `cmd_build` sets `allowUndefined` with `--unchecked`. -/
structure Flags where
  noAbort : Bool
  noImplicitAbort : Bool
  allowUndefined : Bool
  unchecked : Bool
  allows : unchecked = true → allowUndefined = true

/-- What the body of a policy does: nothing (the operation runs unchecked), repair the operands, or
exit the program. -/
inductive Effect
  | empty
  | repairs
  | exits
deriving DecidableEq, Repr

/-- A `@policy` declaration. -/
structure Policy where
  name : String
  category : Category
  effect : Effect
deriving DecidableEq, Repr

/-- The policies of core/core.arche, which stands before every program. -/
def corePolicies : List Policy :=
  [⟨"abort", .bounds, .exits⟩, ⟨"clamp", .bounds, .repairs⟩, ⟨"wrap", .bounds, .repairs⟩,
    ⟨"undefined", .bounds, .empty⟩, ⟨"zero", .divide, .repairs⟩, ⟨"abort", .divide, .exits⟩,
    ⟨"undefined", .divide, .empty⟩, ⟨"reject", .pool, .repairs⟩, ⟨"abort", .pool, .exits⟩]

/-- `@default(func|proc, category, policy)`. -/
structure Default where
  func : Bool
  category : Category
  policy : String
deriving DecidableEq, Repr

/-- The policies and defaults a program declares. -/
structure Rules where
  user : List Policy
  defaults : List Default
deriving DecidableEq, Repr

namespace Rules

def policies (R : Rules) : List Policy := corePolicies ++ R.user

/-- `find_policy_sig_cat` and codegen's `find_policy_decl`. -/
def find? (R : Rules) (name : String) (c : Category) : Option Policy :=
  R.policies.find? fun p => p.category == c && p.name == name

/-- `cg_program_default`. -/
def default? (R : Rules) (func : Bool) (c : Category) : Option String :=
  (R.defaults.find? fun d => d.func == func && d.category == c).map Default.policy

end Rules

/-! ## The operations of a body -/

/-- An operation with a failure policy. `access` is an index or a slice with the verdict of the
pass, `none` where the pass does not check it; `divide` is `/` or, with `isMod`, `%`; `compound` is
`/=` or `%=`. A division that is `wide` is compiled without any policy. `seen`: the pass that
validates this operation comes by. -/
inductive Site
  | access (bare : Bool) (pol : Option PolicyRef) (verdict : Option Verdict)
  | divide (isMod wide : Bool) (pol : Option PolicyRef) (seen : Bool)
  | compound (wide : Bool)
  | insert (p : String) (pol : Option PolicyRef) (seen : Bool)
deriving DecidableEq, Repr

section Sites

variable (P : Prog) (d : Decl)

/-- The verdict on an index. A field chain on a name that is no pool is not checked. -/
def checkedIndex (e : Env) (base i : Expr) : Option Verdict :=
  match base with
  | .extent x _ | .field x => (P.pool? x).map fun _ => indexVerdict P d e base i
  | _ => some (indexVerdict P d e base i)

mutual

/-- The operations of an expression the pass meets with the facts of `m` (`none`: it does not meet
it). `ins`: `analyze_expression` comes by, which it does not in an array or tuple literal. -/
def exprSites (m : Option Env) (ins : Bool) : Expr → List Site
  | .lit _ | .name _ | .extent _ _ | .field _ => []
  | .neg e => exprSites m ins e
  | .binary .and l r _ => exprSites m ins l ++ exprSites (m.map (collectFacts P d l)) ins r
  | .binary (.div w) l r pol =>
    .divide false w pol m.isSome :: (exprSites m ins l ++ exprSites m ins r)
  | .binary (.mod w) l r pol =>
    .divide true w pol m.isSome :: (exprSites m ins l ++ exprSites m ins r)
  | .binary _ l r _ => exprSites m ins l ++ exprSites m ins r
  | .index b i rest bare pol =>
    .access bare pol (m.bind fun e => checkedIndex P d e b i) ::
      (exprSites m ins b ++ exprSites m ins i ++ exprsSites m ins rest)
  | .slice b lo hi bare pol =>
    .access bare pol (m.map fun e => sliceVerdict P d e b lo hi) ::
      (exprSites m ins b ++ optSites m ins lo ++ optSites m ins hi)
  | .call _ args => exprsSites m ins args
  | .insert p vals pol => .insert p pol ins :: exprsSites m ins vals
  | .arrayLit es => exprsSites m false es
  | .node es => exprsSites m ins es

def exprsSites (m : Option Env) (ins : Bool) : List Expr → List Site
  | [] => []
  | e :: es => exprSites m ins e ++ exprsSites m ins es

def optSites (m : Option Env) (ins : Bool) : Option Expr → List Site
  | none => []
  | some e => exprSites m ins e

end

def compoundSites : AssignOp → List Site
  | .div w | .mod w => [.compound w]
  | _ => []

mutual

/-- The operations of a statement the pass scans like an expression, with the same facts
everywhere, or does not meet at all. -/
def scanSites (m : Option Env) : Stmt → List Site
  | .bind _ _ value => optSites P d m true value
  | .assign target op value =>
    compoundSites op ++ exprSites P d m true target ++ exprSites P d m true value
  | .forLoop init cond incr body =>
    scanAll m init ++ optSites P d m true cond ++ scanAll m incr ++ scanAll m body
  | .ite cond thn els => exprSites P d m true cond ++ scanAll m thn ++ scanAll m els
  | .block body | .fan _ body => scanAll m body
  | .matchOn scrut arms => optSites P d m true scrut ++ scanArms m arms
  | .callTo _ value | .expr value => exprSites P d m true value
  | .ret es => exprsSites P d m true es
  | .brk | .cont | .run => []

def scanAll (m : Option Env) : List Stmt → List Site
  | [] => []
  | s :: ss => scanSites m s ++ scanAll m ss

def scanArms (m : Option Env) : List (List Stmt) → List Site
  | [] => []
  | arm :: arms => scanAll m arm ++ scanArms m arms

end

mutual

/-- The operations of a statement `bnd_check_stmt` is called on with `e`. -/
def sites (e : Env) : Stmt → List Site
  | .bind _ _ value => optSites P d (some e) true value
  | .assign target op value =>
    compoundSites op ++ exprSites P d (some e) true value ++
      exprSites P d (some (check P d e (.assign target op value))) true target
  | .forLoop init cond incr body =>
    scanAll P d none init ++ optSites P d none true cond ++ scanAll P d none incr ++
      sitesAll (loopEnv P d e init cond) body
  | .ite cond thn els =>
    match guardExit? cond thn els e with
    | some e' => exprSites P d (some e') true cond ++ scanAll P d none thn ++ scanAll P d none els
    | none =>
      exprSites P d (some e) true cond ++ sitesAll (collectFacts P d cond e) thn ++
        sitesAll (checkAll P d (collectFacts P d cond e) thn) els
  | .block body => sitesAll e body
  | .matchOn scrut arms =>
    sitesArms e arms ++ optSites P d (some (checkArms P d e arms)) true scrut
  | .callTo _ value => exprSites P d (some (insertFacts P e value)) true value
  | .expr value => exprSites P d (some e) true value
  | .ret es => exprsSites P d (some e) true es
  | .brk | .cont | .run => []
  | .fan _ body => scanAll P d (some e) body

def sitesAll (e : Env) : List Stmt → List Site
  | [] => []
  | s :: ss => sites e s ++ sitesAll (check P d e s) ss

def sitesArms (e : Env) : List (List Stmt) → List Site
  | [] => []
  | arm :: arms => sitesAll e arm ++ sitesArms (e.restore (checkAll P d e arm)) arms

end

/-- The operations of the body of `d`. -/
def bodySites (body : List Stmt) : List Site := sitesAll P d (startEnv body) body

end Sites

/-! ## The pass -/

inductive PolicyDiag
  | wrongSigil (name : String)
  | provableOob
  | funcAborts
  | abortForbidden
  | usesUndefined
  | undefinedForbidden
  | unknownPolicy (name : String)
  | wrongCategory (name : String)
deriving DecidableEq, Repr

section Diags

variable (R : Rules) (fl : Flags) (d : Decl)

/-- The name exists, in the category of the operation. -/
def existsDiags (name : String) (want : Category) : List PolicyDiag :=
  if (R.find? name want).isSome then []
  else if R.policies.any (·.name == name) then [.wrongCategory name] else [.unknownPolicy name]

/-- `validate_explicit_policy`. -/
def validateExplicit (name : String) (want : Category) : List PolicyDiag :=
  if name = "abort" then
    if d.kind = .func then [.funcAborts]
    else if fl.noAbort && d.user then [.abortForbidden]
    else existsDiags R name want
  else if name = "undefined" then
    if d.policy.isSome then [.usesUndefined]
    else if !fl.allowUndefined && d.user then [.undefinedForbidden]
    else existsDiags R name want
  else existsDiags R name want

/-- `bnd_policy_check`. -/
def accessDiags (pol : Option PolicyRef) (v : Verdict) : List PolicyDiag :=
  match pol with
  | some r =>
    if r.handler then [.wrongSigil r.name]
    else match v with
      | .oob => [.provableOob]
      | .safe => []
      | .unproved => validateExplicit R fl d r.name .bounds
  | none =>
    match v with
    | .oob => [.provableOob]
    | .safe => []
    | .unproved =>
      if d.kind ≠ .func ∧ (fl.noAbort || fl.noImplicitAbort) ∧ d.user then [.abortForbidden] else []

/-- The check of a division. `%` is no operator `sem_tok_to_op` knows, so only `/` gets here. -/
def divideDiags : Option PolicyRef → List PolicyDiag
  | none => []
  | some r => if r.handler then [.wrongSigil r.name] else validateExplicit R fl d r.name .divide

/-- `sem_check_insert_handler`. -/
def insertDiags : Option PolicyRef → List PolicyDiag
  | none => []
  | some r => if r.handler then existsDiags R r.name .pool else [.wrongSigil r.name]

def siteDiags : Site → List PolicyDiag
  | .access _ pol (some v) => accessDiags R fl d pol v
  | .access _ _ none => []
  | .divide isMod _ pol seen => if seen && !isMod then divideDiags R fl d pol else []
  | .compound _ => []
  | .insert _ pol seen => if seen then insertDiags R pol else []

/-- The pass accepts the body. -/
def PolicyAccepted (P : Prog) (body : List Stmt) : Prop :=
  ∀ s ∈ bodySites P d body, siteDiags R fl d s = []

end Diags

/-! ## Code generation -/

/-- What is compiled at an operation: nothing because it was proved safe, the bare operation, or
the inlined policy of that name and category. -/
inductive Resolution
  | proved
  | bare
  | named (name : String) (c : Category)
deriving DecidableEq, Repr

section Codegen

variable (R : Rules) (fl : Flags)

/-- `cg_policy_for`, for bounds and divide. -/
def cgPolicyFor (pol : Option PolicyRef) (func : Bool) (c : Category) : String :=
  match pol with
  | some r => r.name
  | none =>
    if fl.unchecked then "undefined"
    else match R.default? func c with
      | some name => name
      | none =>
        if c = .divide then (if func then "zero" else "abort")
        else if func then "clamp" else "abort"

/-- The handler of an insert that names none: `pool_overflow_policy`, then the program's. -/
def poolHandler (P : Prog) (p : String) : String :=
  match (P.pool? p).bind Pool.overflow with
  | some name => name
  | none => (R.default? false .pool).getD "reject"

/-- `cg_insert_handler`. -/
def cgInsertHandler (P : Prog) (p : String) (pol : Option PolicyRef) : String :=
  match pol with
  | some ⟨true, name⟩ => name
  | _ => poolHandler R P p

/-- An index, slice or division: `emit_index_policy`, `emit_int_divmod`. -/
def resolveOp (bare : Bool) (pol : Option PolicyRef) (func : Bool) (c : Category) : Resolution :=
  if bare then .bare else .named (cgPolicyFor R fl pol func c) c

/-- What code generation does with an operation; `func`: inside a func. -/
def resolve (P : Prog) (func : Bool) : Site → Resolution
  | .access _ _ (some .safe) => .proved
  | .access bare pol _ => resolveOp R fl bare pol func .bounds
  | .divide _ wide pol _ => resolveOp R fl wide pol func .divide
  | .compound wide => resolveOp R fl wide none func .divide
  | .insert p pol _ => .named (cgInsertHandler R P p pol) .pool

/-- The operation can exit the program. -/
def Resolution.aborts : Resolution → Bool
  | .named name c => (R.find? name c).any (·.effect == .exits)
  | _ => false

/-- The operation runs unchecked: no policy of that name, or an empty one. -/
def Resolution.unchecked : Resolution → Bool
  | .proved => false
  | .bare => true
  | .named name c => (R.find? name c).all (·.effect == .empty)

/-- No exit under `--no-abort`, nothing unchecked without `--allow-undefined`. -/
def Resolution.Allowed (q : Resolution) : Prop :=
  (fl.noAbort = true → q.aborts R = false) ∧ (fl.allowUndefined = false → q.unchecked R = false)

/-- The explicit policy of an operation and the category it has to have. -/
def Site.explicit? : Site → Option (String × Category)
  | .access _ pol _ => pol.map fun r => (r.name, .bounds)
  | .divide _ _ pol _ => pol.map fun r => (r.name, .divide)
  | .compound _ => none
  | .insert _ pol _ => pol.map fun r => (r.name, .pool)

/-- Whether the operations of `d` are compiled as those of a func. A policy is inlined into funcs
and into procs. -/
def contexts (d : Decl) : List Bool := if d.policy.isSome then [true, false] else [d.kind == .func]

/-- What the flags promise of one operation. -/
def Site.Ok (P : Prog) (d : Decl) (s : Site) : Prop :=
  (∀ func ∈ contexts d, (resolve R fl P func s).Allowed R fl) ∧
    ∀ name c, s.explicit? = some (name, c) → (R.find? name c).isSome = true

/-- The crash-free flags are exhaustive on the body of `d`. -/
def Exhaustive (P : Prog) (d : Decl) (body : List Stmt) : Prop :=
  ∀ s ∈ bodySites P d body, s.Ok R fl P d

end Codegen

/-! ## What is left to check by hand -/

section Clear

variable (R : Rules) (fl : Flags) (P : Prog) (d : Decl)

/-- The flags allow the policy. -/
def Policy.fits (p : Policy) : Bool :=
  !(fl.noAbort && p.effect == .exits) && (fl.allowUndefined || p.effect != .empty)

/-- The flags allow what a name nobody looked up stands for; a missing policy leaves the operation
unchecked. -/
def Rules.fits (name : String) (c : Category) : Bool :=
  (R.find? name c).elim fl.allowUndefined (·.fits fl)

/-- An operation without a policy: the `@default` of the program or, without one, the baseline,
which exits in a proc. A policy body counts as func and as proc. -/
def implicitClear (c : Category) : Bool :=
  fl.unchecked || (contexts d).all fun func =>
    (R.default? func c).elim (func || !fl.noAbort) fun name => R.fits fl name c

/-- An index, slice or division. Where it is `validated`, the names `abort` and `undefined` are
decided by the pass; of any other policy the pass does not ask what it does. -/
def opClear (bare validated : Bool) (pol : Option PolicyRef) (c : Category) : Bool :=
  match pol with
  | none => if bare then fl.allowUndefined else implicitClear R fl d c
  | some r =>
    if validated && (r.name == "abort" || r.name == "undefined") then !bare || fl.allowUndefined
    else (R.find? r.name c).any fun p => if bare then fl.allowUndefined else p.fits fl

/-- An insert. Its `?name` is looked up where the pass comes by, and never held against the
flags; nor is the handler of the pool or of the program. -/
def insertClear (p : String) (pol : Option PolicyRef) : Bool :=
  match pol with
  | some ⟨true, name⟩ => (R.find? name .pool).any (·.fits fl)
  | _ => (pol.all fun r => (R.find? r.name .pool).isSome) &&
    (((P.pool? p).bind Pool.overflow).or (R.default? false .pool)).all
      fun name => R.fits fl name .pool

/-- What has to hold of an operation beyond its being accepted. -/
def Site.clear : Site → Bool
  | .access _ pol (some .safe) => pol.all fun r => (R.find? r.name .bounds).isSome
  | .access _ _ (some .oob) => true
  | .access bare pol (some .unproved) => opClear R fl d bare true pol .bounds
  | .access bare pol none => opClear R fl d bare false pol .bounds
  | .divide isMod wide pol seen => opClear R fl d wide (seen && !isMod) pol .divide
  | .compound wide => opClear R fl d wide false none .divide
  | .insert p pol _ => insertClear R fl P p pol

end Clear

/-! ### Core policies -/

section Core

variable (R : Rules) (fl : Flags) {c : Category}

theorem find?_abort : R.find? "abort" c = some ⟨"abort", c, .exits⟩ := by
  cases c <;> rfl

theorem find?_undefined (hc : c ≠ .pool) : R.find? "undefined" c = some ⟨"undefined", c, .empty⟩ := by
  cases c with
  | pool => exact absurd rfl hc
  | bounds => rfl
  | divide => rfl

theorem fits_abort : R.fits fl "abort" c = !fl.noAbort := by
  rw [Rules.fits, find?_abort]
  simp [Policy.fits]

theorem fits_undefined (hc : c ≠ .pool) : R.fits fl "undefined" c = fl.allowUndefined := by
  rw [Rules.fits, find?_undefined R hc]
  simp [Policy.fits]

theorem fits_reject : R.fits fl "reject" .pool = true := by
  have h : R.find? "reject" .pool = some ⟨"reject", .pool, .repairs⟩ := rfl
  rw [Rules.fits, h]
  simp [Policy.fits]

/-- The baseline of an unannotated index, slice or division. -/
theorem fits_baseline (hc : c ≠ .pool) (func : Bool) :
    R.fits fl (if c = .divide then (if func then "zero" else "abort")
      else if func then "clamp" else "abort") c = (func || !fl.noAbort) := by
  have hclamp : R.find? "clamp" .bounds = some ⟨"clamp", .bounds, .repairs⟩ := rfl
  have hzero : R.find? "zero" .divide = some ⟨"zero", .divide, .repairs⟩ := rfl
  cases func with
  | false => cases c <;> simp [fits_abort]
  | true =>
    cases c with
    | pool => exact absurd rfl hc
    | bounds => simp [Rules.fits, hclamp, Policy.fits]
    | divide => simp [Rules.fits, hzero, Policy.fits]

end Core

/-! ### Resolved and allowed -/

section Allowed

variable {R : Rules} {fl : Flags} {P : Prog} {d : Decl} {c : Category}

theorem allowed_named_iff {name : String} :
    (Resolution.named name c).Allowed R fl ↔ R.fits fl name c = true := by
  rcases hp : R.find? name c with _ | p
  · simp [Resolution.Allowed, Resolution.aborts, Resolution.unchecked, Rules.fits, hp]
  · cases he : p.effect <;> cases fl.noAbort <;> cases fl.allowUndefined <;>
      simp [Resolution.Allowed, Resolution.aborts, Resolution.unchecked, Rules.fits, Policy.fits,
        hp, he]

theorem allowed_bare_iff : Resolution.bare.Allowed R fl ↔ fl.allowUndefined = true := by
  simp [Resolution.Allowed, Resolution.aborts, Resolution.unchecked]

theorem allowed_proved : Resolution.proved.Allowed R fl := by
  simp [Resolution.Allowed, Resolution.aborts, Resolution.unchecked]

/-- Every body is compiled in some context. -/
theorem forall_contexts_iff {p : Prop} : (∀ func ∈ contexts d, p) ↔ p := by
  unfold contexts
  split <;> simp

theorem fits_cgPolicyFor (hc : c ≠ .pool) (func : Bool) :
    R.fits fl (cgPolicyFor R fl none func c) c =
      (fl.unchecked || (R.default? func c).elim (func || !fl.noAbort) fun name => R.fits fl name c) := by
  rw [cgPolicyFor]
  cases hu : fl.unchecked with
  | true => simpa [fits_undefined R fl hc] using fl.allows hu
  | false =>
    cases R.default? func c with
    | some name => rfl
    | none => simpa using fits_baseline R fl hc func

/-- An operation nothing is written on. -/
theorem implicit_allowed_iff (hc : c ≠ .pool) :
    (∀ func ∈ contexts d, (Resolution.named (cgPolicyFor R fl none func c) c).Allowed R fl) ↔
      implicitClear R fl d c = true := by
  simp only [allowed_named_iff, fits_cgPolicyFor hc, implicitClear]
  cases fl.unchecked <;> simp

/-- What the validation of an explicit policy leaves: it exists, and `abort` and `undefined` are
allowed by the flags. -/
theorem validateExplicit_nil {name : String} (hc : c ≠ .pool) (hd : d.user = true)
    (h : validateExplicit R fl d name c = []) :
    (R.find? name c).isSome = true ∧
      ((name == "abort" || name == "undefined") = true → R.fits fl name c = true) := by
  have hex : existsDiags R name c = [] → (R.find? name c).isSome = true := by
    intro h
    by_cases hn : (R.find? name c).isSome = true
    · exact hn
    · rw [existsDiags, if_neg hn] at h
      split at h <;> cases h
  by_cases ha : name = "abort"
  · subst ha
    refine ⟨by rw [find?_abort]; rfl, fun _ => ?_⟩
    rw [fits_abort]
    rw [validateExplicit, if_pos rfl] at h
    split at h
    · cases h
    · split at h
      · cases h
      · next hn => simpa [hd] using hn
  · by_cases hu : name = "undefined"
    · subst hu
      refine ⟨by rw [find?_undefined R hc]; rfl, fun _ => ?_⟩
      rw [fits_undefined R fl hc]
      rw [validateExplicit, if_neg ha, if_pos rfl] at h
      split at h
      · cases h
      · split at h
        · cases h
        · next hn => simpa [hd] using hn
    · rw [validateExplicit, if_neg ha, if_neg hu] at h
      exact ⟨hex h, by simp [ha, hu]⟩

/-- An index, slice or division. -/
theorem op_ok_iff {bare validated : Bool} {pol : Option PolicyRef} (hc : c ≠ .pool)
    (hd : d.user = true)
    (h : validated = true → ∀ r, pol = some r → validateExplicit R fl d r.name c = []) :
    ((∀ func ∈ contexts d, (resolveOp R fl bare pol func c).Allowed R fl) ∧
      ∀ r, pol = some r → (R.find? r.name c).isSome = true) ↔
      opClear R fl d bare validated pol c = true := by
  cases pol with
  | none =>
    cases bare with
    | false => simpa [resolveOp, opClear] using implicit_allowed_iff hc
    | true => simp only [resolveOp, opClear, allowed_bare_iff, forall_contexts_iff, if_true,
        reduceCtorEq, false_implies, implies_true, and_true]
  | some r =>
    have hop : (∀ func ∈ contexts d, (resolveOp R fl bare (some r) func c).Allowed R fl) ↔
        (if bare then fl.allowUndefined else R.fits fl r.name c) = true := by
      cases bare with
      | false => simp only [resolveOp, cgPolicyFor, allowed_named_iff, forall_contexts_iff,
          Bool.false_eq_true, if_false]
      | true => simp only [resolveOp, allowed_bare_iff, forall_contexts_iff, if_true]
    have hsome : (∀ r', some r = some r' → (R.find? r'.name c).isSome = true) ↔
        (R.find? r.name c).isSome = true := by simp
    rw [hop, hsome, opClear]
    by_cases hv : (validated && (r.name == "abort" || r.name == "undefined")) = true
    · obtain ⟨hval, hcore⟩ := by simpa only [Bool.and_eq_true] using hv
      obtain ⟨hex, hfits⟩ := validateExplicit_nil hc hd (h hval r rfl)
      rw [if_pos hv]
      cases bare with
      | false => simpa using ⟨hfits hcore, hex⟩
      | true => simpa using fun _ => hex
    · rw [if_neg hv]
      cases hp : R.find? r.name c <;> cases bare <;> simp [Rules.fits, hp]

theorem fits_poolHandler {p : String} :
    R.fits fl (poolHandler R P p) .pool =
      (((P.pool? p).bind Pool.overflow).or (R.default? false .pool)).all
        fun name => R.fits fl name .pool := by
  rw [poolHandler]
  cases (P.pool? p).bind Pool.overflow with
  | some name => rfl
  | none => cases R.default? false .pool <;> simp [fits_reject]

/-- A handler written on an insert, or the one of the pool or of the program. -/
theorem insert_allowed_iff {p : String} {pol : Option PolicyRef} :
    ((∀ func ∈ contexts d, (Resolution.named (cgInsertHandler R P p pol) .pool).Allowed R fl) ∧
      ∀ r, pol = some r → (R.find? r.name .pool).isSome = true) ↔
      insertClear R fl P p pol = true := by
  simp only [forall_contexts_iff, allowed_named_iff]
  rcases pol with _ | ⟨_ | _, name⟩
  · simp [cgInsertHandler, insertClear, fits_poolHandler]
  · simp [cgInsertHandler, insertClear, fits_poolHandler, and_comm]
  · cases hp : R.find? name .pool <;> simp [cgInsertHandler, insertClear, Rules.fits, hp]

/-- The diagnostics of an accepted index or slice. -/
theorem accessDiags_nil {pol : Option PolicyRef} (h : accessDiags R fl d pol .unproved = []) :
    ∀ r, pol = some r → validateExplicit R fl d r.name .bounds = [] := by
  rintro r rfl
  rw [accessDiags] at h
  split at h
  · cases h
  · exact h

theorem accessDiags_oob {pol : Option PolicyRef} : ¬ accessDiags R fl d pol .oob = [] := by
  rcases pol with _ | ⟨_ | _, name⟩ <;> simp [accessDiags]

theorem divideDiags_nil {pol : Option PolicyRef} (h : divideDiags R fl d pol = []) :
    ∀ r, pol = some r → validateExplicit R fl d r.name .divide = [] := by
  rintro r rfl
  rw [divideDiags] at h
  split at h
  · cases h
  · exact h

/-- An accepted operation is what the flags promise exactly where it is clear. -/
theorem Site.ok_iff {s : Site} (hd : d.user = true) (h : siteDiags R fl d s = []) :
    s.Ok R fl P d ↔ s.clear R fl P d = true := by
  have hexplicit : ∀ (pol : Option PolicyRef) (c : Category),
      (∀ name c', pol.map (fun r => (r.name, c)) = some (name, c') →
        (R.find? name c').isSome = true) ↔
      ∀ r, pol = some r → (R.find? r.name c).isSome = true := by
    intro pol c
    cases pol <;> simp
  have hc : Category.bounds ≠ .pool := nofun
  have hc' : Category.divide ≠ .pool := nofun
  cases s with
  | access bare pol v =>
    rcases v with _ | _ | _ | _
    · exact (and_congr_right fun _ => hexplicit pol .bounds).trans (op_ok_iff hc hd nofun)
    · refine (and_congr_right fun _ => hexplicit pol .bounds).trans ?_
      cases pol <;> simp [resolve, allowed_proved, Site.clear]
    · rw [siteDiags] at h
      exact absurd h accessDiags_oob
    · exact (and_congr_right fun _ => hexplicit pol .bounds).trans
        (op_ok_iff hc hd fun _ => accessDiags_nil h)
  | divide isMod wide pol seen =>
    refine (and_congr_right fun _ => hexplicit pol .divide).trans (op_ok_iff hc' hd fun hv => ?_)
    rw [siteDiags, if_pos hv] at h
    exact divideDiags_nil h
  | compound wide =>
    exact (and_congr_right fun _ => hexplicit none .divide).trans (op_ok_iff hc' hd nofun)
  | insert p pol seen =>
    exact (and_congr_right fun _ => hexplicit pol .pool).trans insert_allowed_iff

end Allowed

/-! ## Main results -/

/-- No declarations around the body. -/
def bareProg : Prog := ⟨[], [], fun _ => none⟩

def userProc : Decl := ⟨.proc, [⟨"x", .scalar⟩, ⟨"y", .scalar⟩], [], none, true⟩

def noAbortFlags : Flags := ⟨true, false, false, false, nofun⟩

/-- `q := x / y !zero;` -/
def divideZero : List Stmt :=
  [.bind "q" .scalar (some (.binary (.div false) (.name "x") (.name "y") (some ⟨false, "zero"⟩)))]

/-- `q := x / y;` -/
def divideImplicit : List Stmt :=
  [.bind "q" .scalar (some (.binary (.div false) (.name "x") (.name "y") none))]

end Arche.Semantic.Bounds
