import Mathlib.Data.List.Basic
import Mathlib.Data.List.Forall2

/-!
# Fusion of effect builders

A func that returns an `Eff` is never called. `eff_inline_build` turns a call of
it into calls of externs, with the parameters of the builder replaced by the
actual arguments, and the statement that runs the effect emits these calls.

* `effects` is the meaning of a builder's body: its extern calls in order, with
  the values of their arguments, in the scope of the builder.
* A `Build` is what the inliner hands to the statement, and `runBuild` what the
  statement does with it in the scope of the caller. `none` is a reported error.
* What values are is a parameter (`Interp`). Results of effects reach no argument
  of another effect, so they are left out.

1. `exact_of_faithful`: an accepted call performs exactly what the body
   prescribes, if every parameter stands where the substitution looks, every `seq`
   has a first effect that resolves, and guards are not nested.
2. `not_exact`: a parameter under a minus sign is read in the caller.
-/

namespace Arche.Codegen.EffFusion

/-! ## Expressions -/

inductive BinOp
  | add
  | sub
  | mul
  | div
  | mod
  | eq
  | ne
  | lt
  | gt
  | le
  | ge
  | and
  | or
  | fmap
deriving DecidableEq, Repr

/-- The combinators, and everything else that is called by its name. -/
inductive Callee
  | seq
  | zip
  | ifS
  | whenS
  | pure
  | named (f : String)
deriving DecidableEq, Repr

/-- The forms the substitution passes through. -/
inductive Form
  | neg
  | not
  | index
  | slice
  | arrayLiteral
deriving DecidableEq, Repr

/-- `binary .fmap e f` is `e |> f`. -/
inductive Expr (ν : Type)
  | literal (v : ν)
  | name (x : String)
  | field (base : Expr ν) (f : String)
  | call (f : Callee) (args : List (Expr ν))
  | binary (op : BinOp) (l r : Expr ν)
  | move (e : Expr ν)
  | copy (e : Expr ν)
  | form (k : Form) (es : List (Expr ν))

/-- The values. -/
structure Interp (ν : Type) where
  field : ν → String → ν
  call : Callee → List ν → ν
  binary : BinOp → ν → ν → ν
  form : Form → List ν → ν
  truth : ν → Bool

/-- `eff` says whether the func returns an `Eff`; its body is one `return body`. -/
structure Func (ν : Type) where
  params : List String
  eff : Bool
  body : Expr ν

/-- A constant has its value wherever it is named. -/
structure Program (ν : Type) where
  isExtern : String → Bool
  func : String → Option (Func ν)
  isConst : String → Bool
  const : String → ν

section Model

variable {ν : Type}

section Eval

variable (I : Interp ν)

mutual

/-- The value of an expression in a scope. -/
def eval (ρ : String → ν) : Expr ν → ν
  | .literal v => v
  | .name x => ρ x
  | .field b f => I.field (eval ρ b) f
  | .call f args => I.call f (evalAll ρ args)
  | .binary op l r => I.binary op (eval ρ l) (eval ρ r)
  | .move e | .copy e => eval ρ e
  | .form k es => I.form k (evalAll ρ es)

def evalAll (ρ : String → ν) : List (Expr ν) → List ν
  | [] => []
  | e :: es => eval ρ e :: evalAll ρ es

end

end Eval

/-- An extern with the values of its arguments. -/
abbrev Trace (ν : Type) := List (String × List ν)

section Meaning

variable (I : Interp ν) (P : Program ν)

/-- The scope of a builder whose parameters have these values. -/
def bindEnv (params : List String) (vs : List ν) : String → ν :=
  fun x => ((params.zip vs).lookup x).getD (P.const x)

/-- What an effect prescribes, at most `n` calls and combinators deep. -/
def effects : Nat → (String → ν) → Expr ν → Option (Trace ν)
  | 0, _, _ => none
  | n + 1, ρ, e =>
    match e with
    | .move e | .copy e => effects n ρ e
    | .binary .fmap l _ => effects n ρ l
    | .call .seq [a, b] => do
      let s ← effects n ρ a
      let t ← effects n ρ b
      some (s ++ t)
    | .call .zip es => (es.mapM (effects n ρ)).map List.flatten
    | .call .ifS [c, t, e] => if I.truth (eval I ρ c) then effects n ρ t else effects n ρ e
    | .call .whenS [c, t] => if I.truth (eval I ρ c) then effects n ρ t else some []
    | .call .pure _ => some []
    | .call (.named f) args =>
      if P.isExtern f then some [(f, evalAll I ρ args)]
      else
        match P.func f with
        | some g => effects n (bindEnv P g.params (evalAll I ρ args)) g.body
        | none => none
    | _ => none

/-- The effect prescribes exactly this trace. -/
def Prescribes (ρ : String → ν) (e : Expr ν) (t : Trace ν) : Prop :=
  ∃ n, ∀ m ≥ n, effects I P m ρ e = some t

end Meaning

/-! ## The inliner -/

/-- Without `move` and `copy` around it. -/
def Expr.strip : Expr ν → Expr ν
  | .move e | .copy e => e.strip
  | e => e

/-- The actual argument of the parameter `x`. -/
def actual (params : List String) (args : List (Expr ν)) (x : String) : Option (Expr ν) :=
  (params.zip args).lookup x

section Subst

variable (σ : String → Option (Expr ν))

mutual

/-- What `eff_subst_arg` builds anew; `none` where it hands back its argument. -/
def rebuild : Expr ν → Option (Expr ν)
  | .move e | .copy e => rebuild e
  | .name x => σ x
  | .field (.name x) f => (σ x).map (.field · f)
  | .call f (a :: as) => some (.call f (substArgs (a :: as)))
  | .binary op l r => some (.binary op ((rebuild l).getD l) ((rebuild r).getD r))
  | _ => none

def substArgs : List (Expr ν) → List (Expr ν)
  | [] => []
  | e :: es => (rebuild e).getD e :: substArgs es

end

/-- `eff_subst_arg`. -/
def substArg (e : Expr ν) : Expr ν := (rebuild σ e).getD e

end Subst

/-- A call of an extern. -/
structure Call (ν : Type) where
  target : String
  args : List (Expr ν)

/-- What `eff_subst_call` returns: the call or `NULL`, the finalizer so far, and whether an error
was reported on the way. -/
structure Sub (ν : Type) where
  call : Option (Call ν)
  fin : Option String
  err : Bool

/-- The main effect: one call, or the calls of a `zip`. -/
inductive Main (ν : Type)
  | one (c : Call ν)
  | zip (cs : List (Call ν))

/-- What `eff_inline_build` returns and sets: the main effect or `NULL`, the effect that runs before
it, the guard, the finalizer, and whether an error was reported. -/
structure Build (ν : Type) where
  main : Option (Main ν)
  lead : Option (Call ν)
  cond : Option (Expr ν)
  fin : Option String
  err : Bool

def isPure : Expr ν → Bool
  | .call .pure _ => true
  | _ => false

section Inline

variable (P : Program ν)

/-- The right side of `|>`, if it names a func. -/
def finalizer : Expr ν → Option String
  | .name f => if (P.func f).isSome then some f else none
  | _ => none

/-- `eff_subst_call`. A recursion of builders has no end: `n` bounds it, and running out counts as
an error. -/
def effSubstCall : Nat → (String → Option (Expr ν)) → Expr ν → Option String → Sub ν
  | 0, _, _, fin => ⟨none, fin, true⟩
  | n + 1, σ, ec, fin =>
    match ec.strip with
    | .call (.named f) args =>
      if P.isExtern f then ⟨some ⟨f, substArgs σ args⟩, fin, false⟩
      else
        match P.func f with
        | some g =>
          if g.eff then
            match g.body with
            | .binary .fmap l r =>
              let gfin := finalizer P r
              let sub := effSubstCall n (actual g.params (substArgs σ args)) l (fin.or gfin)
              { sub with err := sub.err || (fin.isSome && gfin.isSome) }
            | e => effSubstCall n (actual g.params (substArgs σ args)) e fin
          else ⟨none, fin, false⟩
        | none => ⟨none, fin, false⟩
    | _ => ⟨none, fin, false⟩

/-- The parts of a `zip`, `none` if one of them is `NULL`. There is room for 16. -/
def zipCalls (n : Nat) (σ : String → Option (Expr ν)) (es : List (Expr ν)) :
    Option (List (Call ν)) × Bool :=
  let subs := (es.take 16).map fun e => effSubstCall P n σ e none
  (subs.mapM Sub.call, subs.any Sub.err)

/-- The end of `eff_inline_build`: a `zip`, or a chain of builders that leads to an extern. -/
def inlineMain (n : Nat) (σ : String → Option (Expr ν)) (lead : Option (Call ν)) (err : Bool)
    (bcall : Expr ν) (cond : Option (Expr ν)) (fin : Option String) : Build ν :=
  match bcall with
  | .call .zip (e₁ :: e₂ :: es) =>
    let calls := zipCalls P n σ (e₁ :: e₂ :: es)
    ⟨calls.1.map .zip, lead, cond, fin, err || calls.2⟩
  | e =>
    let sub := effSubstCall P n σ e fin
    ⟨sub.call.map .one, lead, cond, sub.fin, err || sub.err⟩

/-- The part of `eff_inline_build` from `seq` on. That the first effect of a `seq` may be `NULL` is
not looked at. -/
def inlineRest (n : Nat) (σ : String → Option (Expr ν)) (bcall : Expr ν) (cond : Option (Expr ν))
    (fin : Option String) : Build ν :=
  match bcall with
  | .call .seq [a, b] =>
    let sub := effSubstCall P n σ a none
    inlineMain P n σ sub.call sub.err b cond fin
  | e => inlineMain P n σ none false e cond fin

/-- `e` without the `|> fin` at its end, and the finalizer. -/
def splitFmap : Expr ν → Expr ν × Option String
  | .binary .fmap l r => (l, finalizer P r)
  | e => (e, none)

/-- The guarded part of `eff_inline_build`, with `build` its recursion. The guard of a builder
inside a guard is overwritten, and an effect that is no builder is substituted again. -/
def inlineSelect (build : Func ν → List (Expr ν) → Build ν) (n : Nat)
    (σ : String → Option (Expr ν)) (c t : Expr ν) (fin : Option String) : Build ν :=
  let cond := substArg σ c
  match (substArg σ t).strip with
  | .call (.named h) args =>
    match P.func h with
    | some g => { build g args with cond := some cond }
    | none => inlineRest P n σ (.call (.named h) args) (some cond) fin
  | e => inlineRest P n σ e (some cond) fin

/-- `eff_inline_build`. -/
def inlineBuild : Nat → Func ν → List (Expr ν) → Build ν
  | 0, _, _ => ⟨none, none, none, none, true⟩
  | n + 1, f, args =>
    let σ := actual f.params args
    let (body, fin) := splitFmap P f.body
    match body.strip with
    | .call .ifS [c, t, e] =>
      if isPure e.strip then inlineSelect P (inlineBuild n) n σ c t fin
      else ⟨none, none, none, fin, true⟩
    | .call .whenS [c, t] => inlineSelect P (inlineBuild n) n σ c t fin
    | e => inlineRest P n σ e none fin

end Inline

/-! ## The statement that runs the effect -/

section Run

variable (I : Interp ν)

def Call.run (ρ : String → ν) (c : Call ν) : String × List ν := (c.target, evalAll I ρ c.args)

/-- What is emitted for a build, run in the scope of the caller. The calls of a `zip` are emitted
without the effect before them. -/
def runBuild (ρ : String → ν) (b : Build ν) : Option (Trace ν) :=
  match b.err, b.main, b.cond with
  | true, _, _ => none
  | false, none, _ => none
  | false, some (.zip _), some _ => none
  | false, some (.zip cs), none => some (cs.map (Call.run I ρ))
  | false, some (.one c), none => some ((b.lead.toList ++ [c]).map (Call.run I ρ))
  | false, some (.one c), some cond =>
    if I.truth (eval I ρ cond) then some ((b.lead.toList ++ [c]).map (Call.run I ρ)) else some []

/-- The call `f(args)` performs what the body of `f` prescribes for the values of `args`, or an
error is reported. -/
def Exact (P : Program ν) (ρ : String → ν) (f : Func ν) (args : List (Expr ν)) : Prop :=
  ∀ n t, runBuild I ρ (inlineBuild P n f args) = some t →
    Prescribes I P (bindEnv P f.params (evalAll I ρ args)) f.body t

end Run

/-! ## Calls that are inlined faithfully -/

mutual

/-- The names of an expression. -/
def vars : Expr ν → List String
  | .literal _ => []
  | .name x => [x]
  | .field b _ => vars b
  | .call _ args => varsAll args
  | .binary _ l r => vars l ++ vars r
  | .move e | .copy e => vars e
  | .form _ es => varsAll es

def varsAll : List (Expr ν) → List String
  | [] => []
  | e :: es => vars e ++ varsAll es

end

section Faithful

variable (P : Program ν)

/-- No name of the expression is a parameter. -/
def closed (params : List String) (xs : List String) : Bool :=
  xs.all fun x => P.isConst x && !params.contains x

mutual

/-- Every parameter in the expression stands where the substitution looks, and every other name is a
constant. -/
def covered (params : List String) : Expr ν → Bool
  | .literal _ => true
  | .name x => params.contains x || P.isConst x
  | .field (.name x) _ => params.contains x || P.isConst x
  | .field b _ => closed P params (vars b)
  | .call _ args => coveredAll params args
  | .binary _ l r => covered params l && covered params r
  | .move e | .copy e => covered params e
  | .form _ es => closed P params (varsAll es)

def coveredAll (params : List String) : List (Expr ν) → Bool
  | [] => true
  | e :: es => covered params e && coveredAll params es

end

/-- The call is of an extern, or of a builder whose body leads to one. -/
def faithfulCall : Nat → List String → Expr ν → Bool
  | 0, _, _ => false
  | n + 1, params, e =>
    match e.strip with
    | .call (.named f) args =>
      coveredAll P params args &&
        (P.isExtern f ||
          match P.func f with
          | some g => g.eff && args.length == g.params.length &&
              faithfulCall n g.params (splitFmap P g.body).1
          | none => false)
    | _ => false

/-- A call, a `seq` whose first effect is `pure` or a call, or a `zip` of at most 16 calls. -/
def faithfulRest (n : Nat) (params : List String) : Expr ν → Bool
  | .call .seq [a, b] =>
    (isPure a.strip || faithfulCall P n params a) && faithfulCall P n params b
  | .call .zip es => decide (es.length ≤ 16) && es.all (faithfulCall P n params)
  | e => faithfulCall P n params e

/-- A guarded effect. -/
def isSelect : Expr ν → Bool
  | .call .ifS _ => true
  | .call .whenS _ => true
  | _ => false

end Faithful

section Settled

variable (σ : String → Option (Expr ν))

/-- The name is no parameter, or is passed on as itself. -/
def settledName (x : String) : Bool :=
  match σ x with
  | none => true
  | some (.name y) => y == x
  | some _ => false

mutual

/-- A second substitution does not change the value. -/
def settled : Expr ν → Bool
  | .name x => settledName σ x
  | .field (.name x) _ => settledName σ x
  | .call _ args => settledAll args
  | .binary _ l r => settled l && settled r
  | .move e | .copy e => settled e
  | _ => true

def settledAll : List (Expr ν) → Bool
  | [] => true
  | e :: es => settled e && settledAll es

end

end Settled

section Select

variable (P : Program ν)

/-- Under a guard, a builder must not be guarded itself, and the actual arguments of any other
effect must be settled. -/
def faithfulSelect (build : Func ν → List (Expr ν) → Bool) (n : Nat) (f : Func ν)
    (args : List (Expr ν)) (c t : Expr ν) : Bool :=
  let σ := actual f.params args
  covered P f.params c &&
    match t.strip with
    | .call (.named h) targs =>
      match P.func h with
      | some g => !P.isExtern h && coveredAll P f.params targs &&
          !isSelect (splitFmap P g.body).1.strip && build g (substArgs σ targs)
      | none => settledAll σ args && faithfulRest P n f.params (.call (.named h) targs)
    | e => settledAll σ args && faithfulRest P n f.params e

/-- The call `f(args)` is inlined faithfully. -/
def faithful : Nat → Func ν → List (Expr ν) → Bool
  | 0, _, _ => false
  | n + 1, f, args =>
    args.length == f.params.length &&
      match (splitFmap P f.body).1.strip with
      | .call .ifS [c, t, _] => faithfulSelect P (faithful n) n f args c t
      | .call .whenS [c, t] => faithfulSelect P (faithful n) n f args c t
      | e => faithfulRest P n f.params e

/-- At some depth. -/
def Faithful (f : Func ν) (args : List (Expr ν)) : Prop := ∃ n, faithful P n f args = true

end Select

/-! ## Substitution -/

section Eval

variable (I : Interp ν)

theorem evalAll_eq_map (ρ : String → ν) (es : List (Expr ν)) :
    evalAll I ρ es = es.map (eval I ρ) := by
  induction es with
  | nil => rfl
  | cons e es ih => rw [evalAll, ih, List.map_cons]

theorem substArgs_eq_map (σ : String → Option (Expr ν)) (es : List (Expr ν)) :
    substArgs σ es = es.map (substArg σ) := by
  induction es with
  | nil => rfl
  | cons e es ih => rw [substArgs, ih, List.map_cons, substArg]

mutual

theorem eval_congr {ρ ρ' : String → ν} (e : Expr ν) (h : ∀ x ∈ vars e, ρ x = ρ' x) :
    eval I ρ e = eval I ρ' e := by
  cases e with
  | literal v => rfl
  | name x => exact h x List.mem_cons_self
  | field b f => rw [eval, eval, eval_congr b h]
  | call f args => rw [eval, eval, evalAll_congr args h]
  | binary op l r =>
    rw [vars, List.forall_mem_append] at h
    rw [eval, eval, eval_congr l h.1, eval_congr r h.2]
  | move e => rw [eval, eval, eval_congr e h]
  | copy e => rw [eval, eval, eval_congr e h]
  | form k es => rw [eval, eval, evalAll_congr es h]

theorem evalAll_congr {ρ ρ' : String → ν} (es : List (Expr ν)) (h : ∀ x ∈ varsAll es, ρ x = ρ' x) :
    evalAll I ρ es = evalAll I ρ' es := by
  cases es with
  | nil => rfl
  | cons e es =>
    rw [varsAll, List.forall_mem_append] at h
    rw [evalAll, evalAll, eval_congr e h.1, evalAll_congr es h.2]

end

end Eval

section Subst

variable {I : Interp ν} {P : Program ν} {params : List String} {σ : String → Option (Expr ν)}
  {ρ ρ' : String → ν}

/-- `σ` gives the parameters in the scope `ρ` the values they have in `ρ'`. -/
structure Binds (I : Interp ν) (P : Program ν) (params : List String)
    (σ : String → Option (Expr ν)) (ρ ρ' : String → ν) : Prop where
  param : ∀ x a, σ x = some a → eval I ρ a = ρ' x
  other : ∀ x, σ x = none → P.isConst x = true → ρ x = ρ' x
  isParam : ∀ x, x ∈ params ↔ (σ x).isSome = true

/-- What holds of an expression holds of it under `move` and `copy`, which the substitution drops
where it rebuilds. -/
theorem substArg_wrap {α : Type} (F : Expr ν → α) (w e : Expr ν) (hr : rebuild σ w = rebuild σ e)
    (hF : F w = F e) : F (substArg σ w) = F (substArg σ e) := by
  rw [substArg, substArg, hr]
  cases rebuild σ e with
  | none => exact hF
  | some e' => rfl

theorem Binds.lookup (h : Binds I P params σ ρ ρ') {x : String}
    (hx : (params.contains x || P.isConst x) = true) :
    eval I ρ ((σ x).getD (.name x)) = ρ' x := by
  cases hσ : σ x with
  | some a => exact h.param x a hσ
  | none =>
    refine h.other x hσ ?_
    rw [Bool.or_eq_true, List.contains_iff_mem, h.isParam, hσ] at hx
    rcases hx with hx | hx
    · exact absurd hx Bool.false_ne_true
    · exact hx

theorem Binds.closed (h : Binds I P params σ ρ ρ') {xs : List String}
    (hx : closed P params xs = true) : ∀ x ∈ xs, ρ x = ρ' x := by
  intro x hmem
  have hb := List.all_eq_true.mp hx x hmem
  rw [Bool.and_eq_true, Bool.not_eq_true', ← Bool.not_eq_true, List.contains_iff_mem,
    h.isParam] at hb
  refine h.other x ?_ hb.1
  rw [← Option.not_isSome_iff_eq_none]
  exact hb.2

mutual

theorem eval_substArg (h : Binds I P params σ ρ ρ') (e : Expr ν)
    (hc : covered P params e = true) : eval I ρ (substArg σ e) = eval I ρ' e := by
  cases e with
  | literal v => rfl
  | name x => exact h.lookup hc
  | field b f =>
    by_cases hb : ∃ x, b = .name x
    · obtain ⟨x, rfl⟩ := hb
      have hx := h.lookup hc
      rw [substArg, rebuild, eval, eval, ← hx]
      cases σ x <;> rfl
    · -- the field passes through, and names no parameter
      have hpass : rebuild σ (.field b f) = none ∧ EffFusion.closed P params (vars b) = true := by
        cases b with
        | name x => exact absurd ⟨x, rfl⟩ hb
        | _ => exact ⟨rfl, hc⟩
      rw [substArg, hpass.1, Option.getD_none]
      exact eval_congr I _ (h.closed hpass.2)
  | call g args =>
    cases args with
    | nil => rfl
    | cons a as =>
      rw [covered] at hc
      rw [substArg, rebuild, Option.getD_some, eval, eval, evalAll_substArgs h (a :: as) hc]
  | binary op l r =>
    rw [covered, Bool.and_eq_true] at hc
    rw [substArg, rebuild, Option.getD_some, eval, eval]
    exact congrArg₂ _ (eval_substArg h l hc.1) (eval_substArg h r hc.2)
  | move e =>
    rw [covered] at hc
    exact (substArg_wrap (eval I ρ) (.move e) e rfl rfl).trans (eval_substArg h e hc)
  | copy e =>
    rw [covered] at hc
    exact (substArg_wrap (eval I ρ) (.copy e) e rfl rfl).trans (eval_substArg h e hc)
  | form k es =>
    rw [covered] at hc
    exact eval_congr I (.form k es) (h.closed hc)

theorem evalAll_substArgs (h : Binds I P params σ ρ ρ') (es : List (Expr ν))
    (hc : coveredAll P params es = true) : evalAll I ρ (substArgs σ es) = evalAll I ρ' es := by
  cases es with
  | nil => rfl
  | cons e es =>
    rw [coveredAll, Bool.and_eq_true] at hc
    rw [substArgs, evalAll, evalAll]
    exact congrArg₂ _ (eval_substArg h e hc.1) (evalAll_substArgs h es hc.2)

end

/-- The actual arguments bind the parameters to their values. -/
theorem binds_actual (hρ : ∀ x, P.isConst x = true → ρ x = P.const x) {args : List (Expr ν)}
    (hlen : args.length = params.length) :
    Binds I P params (actual params args) ρ (bindEnv P params (evalAll I ρ args)) := by
  have hlookup : ∀ x, (params.zip (evalAll I ρ args)).lookup x =
      (actual params args x).map (eval I ρ) := by
    intro x
    rw [evalAll_eq_map, actual]
    clear hlen
    induction params generalizing args with
    | nil => rfl
    | cons p ps ih =>
      cases args with
      | nil => rfl
      | cons a as =>
        rw [List.map_cons, List.zip_cons_cons, List.zip_cons_cons, List.lookup_cons,
          List.lookup_cons]
        cases x == p with
        | true => rfl
        | false => exact ih
  refine ⟨?_, ?_, ?_⟩
  · intro x a ha
    rw [bindEnv, hlookup, ha]
    rfl
  · intro x hx hc
    rw [bindEnv, hlookup, hx]
    exact hρ x hc
  · intro x
    rw [actual]
    clear hlookup
    induction params generalizing args with
    | nil => exact iff_of_false List.not_mem_nil Bool.false_ne_true
    | cons p ps ih =>
      cases args with
      | nil => exact absurd hlen (Nat.succ_ne_zero _).symm
      | cons a as =>
        rw [List.zip_cons_cons, List.lookup_cons, List.mem_cons]
        cases hxp : x == p with
        | true => exact iff_of_true (.inl (beq_iff_eq.mp hxp)) rfl
        | false =>
          rw [← ih (Nat.succ.inj hlen)]
          exact or_iff_right fun h => Bool.false_ne_true (hxp.symm.trans (beq_iff_eq.mpr h))

theorem eval_of_settledName {x : String} (h : settledName σ x = true) :
    eval I ρ ((σ x).getD (.name x)) = ρ x := by
  unfold settledName at h
  split at h
  · next hx =>
    rw [hx]
    rfl
  · next y hx =>
    rw [hx, ← beq_iff_eq.mp h]
    rfl
  · exact absurd h Bool.false_ne_true

mutual

theorem eval_settled (e : Expr ν) (h : settled σ e = true) :
    eval I ρ (substArg σ e) = eval I ρ e := by
  cases e with
  | literal v => rfl
  | name x => exact eval_of_settledName h
  | field b f =>
    cases b with
    | name x =>
      have hx : eval I ρ ((σ x).getD (.name x)) = ρ x := eval_of_settledName h
      rw [substArg, rebuild, eval, eval, ← hx]
      cases σ x <;> rfl
    | _ => rfl
  | call g args =>
    cases args with
    | nil => rfl
    | cons a as =>
      rw [settled] at h
      rw [substArg, rebuild, Option.getD_some, eval, eval, evalAll_settled (a :: as) h]
  | binary op l r =>
    rw [settled, Bool.and_eq_true] at h
    rw [substArg, rebuild, Option.getD_some, eval, eval]
    exact congrArg₂ _ (eval_settled l h.1) (eval_settled r h.2)
  | move e =>
    rw [settled] at h
    exact (substArg_wrap (eval I ρ) (.move e) e rfl rfl).trans (eval_settled e h)
  | copy e =>
    rw [settled] at h
    exact (substArg_wrap (eval I ρ) (.copy e) e rfl rfl).trans (eval_settled e h)
  | form k es => rfl

theorem evalAll_settled (es : List (Expr ν)) (h : settledAll σ es = true) :
    evalAll I ρ (substArgs σ es) = evalAll I ρ es := by
  cases es with
  | nil => rfl
  | cons e es =>
    rw [settledAll, Bool.and_eq_true] at h
    rw [substArgs, evalAll, evalAll]
    exact congrArg₂ _ (eval_settled e h.1) (evalAll_settled es h.2)

end

theorem settled_name (hσ : ∀ x a, σ x = some a → settled σ a = true) (x : String) :
    settled σ ((σ x).getD (.name x)) = true := by
  cases hx : σ x with
  | none =>
    show settledName σ x = true
    rw [settledName, hx]
  | some a => exact hσ x a hx

/-- An actual argument that is settled stays so as the base of a field. -/
theorem settled_field {a : Expr ν} (h : settled σ a = true) (f : String) :
    settled σ (.field a f) = true := by
  cases a with
  | name x => exact h
  | _ => rfl

mutual

theorem settled_substArg (hσ : ∀ x a, σ x = some a → settled σ a = true) (e : Expr ν) :
    settled σ (substArg σ e) = true := by
  cases e with
  | literal v => rfl
  | name x => exact settled_name hσ x
  | field b f =>
    cases b with
    | name x =>
      rw [substArg, rebuild]
      have hx := settled_field (settled_name hσ x) f
      cases hs : σ x with
      | none =>
        rw [hs] at hx
        exact hx
      | some a =>
        rw [hs] at hx
        exact hx
    | _ => rfl
  | call g args =>
    cases args with
    | nil => rfl
    | cons a as =>
      rw [substArg, rebuild, Option.getD_some, settled]
      exact settledAll_substArgs hσ (a :: as)
  | binary op l r =>
    rw [substArg, rebuild, Option.getD_some, settled, Bool.and_eq_true]
    exact ⟨settled_substArg hσ l, settled_substArg hσ r⟩
  | move e => exact (substArg_wrap (settled σ) (.move e) e rfl rfl).trans (settled_substArg hσ e)
  | copy e => exact (substArg_wrap (settled σ) (.copy e) e rfl rfl).trans (settled_substArg hσ e)
  | form k es => rfl

theorem settledAll_substArgs (hσ : ∀ x a, σ x = some a → settled σ a = true) (es : List (Expr ν)) :
    settledAll σ (substArgs σ es) = true := by
  cases es with
  | nil => rfl
  | cons e es =>
    rw [substArgs, settledAll, Bool.and_eq_true]
    exact ⟨settled_substArg hσ e, settledAll_substArgs hσ es⟩

end

end Subst

/-! ## What is prescribed -/

section Prescribes

variable {I : Interp ν} {P : Program ν} {ρ : String → ν}

/-- One more level of `effects`. -/
theorem Prescribes.of_step {e : Expr ν} {t : Trace ν} (n : Nat)
    (h : ∀ m ≥ n, effects I P (m + 1) ρ e = some t) : Prescribes I P ρ e t := by
  refine ⟨n + 1, fun m hm => ?_⟩
  obtain ⟨m, rfl⟩ := Nat.exists_eq_add_of_le' (Nat.le_trans (Nat.le_add_left 1 n) hm)
  exact h m (Nat.le_of_succ_le_succ hm)

/-- At most one trace is prescribed. -/
theorem Prescribes.unique {e : Expr ν} {t t' : Trace ν} (h : Prescribes I P ρ e t)
    (h' : Prescribes I P ρ e t') : t = t' := by
  obtain ⟨n, hn⟩ := h
  obtain ⟨n', hn'⟩ := h'
  have h₁ := hn (max n n') (Nat.le_max_left n n')
  have h₂ := hn' (max n n') (Nat.le_max_right n n')
  exact Option.some.inj (h₁.symm.trans h₂)

theorem Prescribes.of_strip {e : Expr ν} {t : Trace ν} (h : Prescribes I P ρ e.strip t) :
    Prescribes I P ρ e t := by
  fun_induction Expr.strip e with
  | case1 e ih =>
    obtain ⟨n, hn⟩ := ih h
    exact .of_step n hn
  | case2 e ih =>
    obtain ⟨n, hn⟩ := ih h
    exact .of_step n hn
  | case3 e => exact h

theorem Prescribes.of_splitFmap {e : Expr ν} {t : Trace ν}
    (h : Prescribes I P ρ (splitFmap P e).1 t) : Prescribes I P ρ e t := by
  unfold splitFmap at h
  split at h
  · obtain ⟨n, hn⟩ := h
    exact .of_step n hn
  · exact h

theorem Prescribes.foreign {f : String} {args : List (Expr ν)} (h : P.isExtern f = true) :
    Prescribes I P ρ (.call (.named f) args) [(f, evalAll I ρ args)] := by
  refine .of_step 0 fun m _ => ?_
  rw [effects, if_pos h]

theorem Prescribes.build {f : String} {args : List (Expr ν)} {g : Func ν} {t : Trace ν}
    (hf : P.isExtern f = false) (hg : P.func f = some g)
    (h : Prescribes I P (bindEnv P g.params (evalAll I ρ args)) g.body t) :
    Prescribes I P ρ (.call (.named f) args) t := by
  obtain ⟨n, hn⟩ := h
  refine .of_step n fun m hm => ?_
  rw [effects, hf, hg]
  exact hn m hm

theorem Prescribes.seq {a b : Expr ν} {s t : Trace ν} (ha : Prescribes I P ρ a s)
    (hb : Prescribes I P ρ b t) : Prescribes I P ρ (.call .seq [a, b]) (s ++ t) := by
  obtain ⟨n, hn⟩ := ha
  obtain ⟨k, hk⟩ := hb
  refine .of_step (max n k) fun m hm => ?_
  rw [effects, hn m (Nat.le_trans (Nat.le_max_left n k) hm),
    hk m (Nat.le_trans (Nat.le_max_right n k) hm)]
  rfl

theorem Prescribes.pure {e : Expr ν} (h : isPure e = true) : Prescribes I P ρ e [] := by
  unfold isPure at h
  split at h
  · exact .of_step 0 fun m _ => rfl
  · exact absurd h Bool.false_ne_true

theorem Prescribes.zip {es : List (Expr ν)} {ts : List (Trace ν)}
    (h : List.Forall₂ (Prescribes I P ρ) es ts) :
    Prescribes I P ρ (.call .zip es) ts.flatten := by
  have hall : ∃ n, ∀ m ≥ n, es.mapM (effects I P m ρ) = some ts := by
    induction h with
    | nil => exact ⟨0, fun _ _ => rfl⟩
    | cons ht _ ih =>
      obtain ⟨n, hn⟩ := ht
      obtain ⟨k, hk⟩ := ih
      refine ⟨max n k, fun m hm => ?_⟩
      rw [List.mapM_cons, hn m (Nat.le_trans (Nat.le_max_left n k) hm),
        hk m (Nat.le_trans (Nat.le_max_right n k) hm)]
      rfl
  obtain ⟨n, hn⟩ := hall
  refine .of_step n fun m hm => ?_
  rw [effects, hn m hm]
  rfl

/-- A guard that holds, or one that does not. -/
def Guarded (I : Interp ν) (P : Program ν) (ρ : String → ν) (c e : Expr ν) (t : Trace ν) : Prop :=
  (I.truth (eval I ρ c) = true ∧ Prescribes I P ρ e t) ∨ (I.truth (eval I ρ c) = false ∧ t = [])

theorem Guarded.whenS {c e : Expr ν} {t : Trace ν} (h : Guarded I P ρ c e t) :
    Prescribes I P ρ (.call .whenS [c, e]) t := by
  rcases h with ⟨hc, n, hn⟩ | ⟨hc, rfl⟩
  · refine .of_step n fun m hm => ?_
    rw [effects, if_pos hc, hn m hm]
  · refine .of_step 0 fun m _ => ?_
    rw [effects, hc]
    rfl

theorem Guarded.ifS {c e other : Expr ν} {t : Trace ν} (h : Guarded I P ρ c e t)
    (hother : Prescribes I P ρ other []) : Prescribes I P ρ (.call .ifS [c, e, other]) t := by
  rcases h with ⟨hc, n, hn⟩ | ⟨hc, rfl⟩
  · refine .of_step n fun m hm => ?_
    rw [effects, if_pos hc, hn m hm]
  · obtain ⟨n, hn⟩ := hother
    refine .of_step n fun m hm => ?_
    rw [effects, hc]
    exact hn m hm

end Prescribes

/-! ## The inliner is exact -/

theorem rebuild_strip (σ : String → Option (Expr ν)) (e : Expr ν) :
    rebuild σ e.strip = rebuild σ e := by
  fun_induction Expr.strip e with
  | case1 e ih => exact ih
  | case2 e ih => exact ih
  | case3 e => rfl

theorem strip_substArg {σ : String → Option (Expr ν)} {e : Expr ν} {f : Callee}
    {args : List (Expr ν)} (h : e.strip = .call f args) :
    (substArg σ e).strip = .call f (args.map (substArg σ)) := by
  rw [substArg, ← rebuild_strip, h]
  cases args with
  | nil => exact h
  | cons a as =>
    rw [rebuild, Option.getD_some, substArgs_eq_map]
    rfl

theorem strip_idem (e : Expr ν) : e.strip.strip = e.strip := by
  fun_induction Expr.strip e with
  | case1 e ih => exact ih
  | case2 e ih => exact ih
  | case3 e h₁ h₂ =>
    cases e with
    | move e => exact absurd rfl (h₁ e)
    | copy e => exact absurd rfl (h₂ e)
    | _ => rfl

section Exact

variable {I : Interp ν} {P : Program ν} {params : List String} {σ : String → Option (Expr ν)}
  {ρ ρ' : String → ν} {τ : Expr ν → Expr ν}

/-- The inliner works on `τ e` instead of `e`: on `e` itself, or on what is already substituted. -/
structure Tracks (I : Interp ν) (P : Program ν) (params : List String)
    (σ : String → Option (Expr ν)) (ρ ρ' : String → ν) (τ : Expr ν → Expr ν) : Prop where
  args : ∀ args, coveredAll P params args = true →
    evalAll I ρ (substArgs σ (args.map τ)) = evalAll I ρ' args
  strip : ∀ e f args, e.strip = .call f args → (τ e).strip = .call f (args.map τ)

theorem tracks_id (h : Binds I P params σ ρ ρ') : Tracks I P params σ ρ ρ' id := by
  refine ⟨?_, ?_⟩
  · intro args hc
    rw [List.map_id]
    exact evalAll_substArgs h args hc
  · intro e f args he
    rw [List.map_id]
    exact he

theorem tracks_substArg (h : Binds I P params σ ρ ρ')
    (hσ : ∀ x a, σ x = some a → settled σ a = true) :
    Tracks I P params σ ρ ρ' (substArg σ) := by
  refine ⟨?_, fun e f args he => strip_substArg he⟩
  intro args hc
  rw [← substArgs_eq_map, evalAll_settled _ (settledAll_substArgs hσ args)]
  exact evalAll_substArgs h args hc

theorem effSubstCall_foreign {n : Nat} {e : Expr ν} {f : String} {args : List (Expr ν)}
    (he : e.strip = .call (.named f) args) (hx : P.isExtern f = true) (fin : Option String) :
    effSubstCall P (n + 1) σ e fin = ⟨some ⟨f, substArgs σ args⟩, fin, false⟩ := by
  simp only [effSubstCall, he, hx, if_true]

theorem effSubstCall_build {n : Nat} {e : Expr ν} {f : String} {args : List (Expr ν)} {g : Func ν}
    (he : e.strip = .call (.named f) args) (hx : P.isExtern f = false) (hg : P.func f = some g)
    (heff : g.eff = true) (fin : Option String) :
    (effSubstCall P (n + 1) σ e fin).call =
      (effSubstCall P n (actual g.params (substArgs σ args)) (splitFmap P g.body).1
        (fin.or (splitFmap P g.body).2)).call := by
  simp only [effSubstCall, he, hx, hg, heff, if_true, Bool.false_eq_true, if_false]
  unfold splitFmap
  split
  · rfl
  · rw [Option.or_none]

variable (hρ : ∀ x, P.isConst x = true → ρ x = P.const x)

include hρ in
/-- A faithful call leads to one extern, with the values the body gives its arguments. -/
theorem effSubstCall_exact (n : Nat) (ht : Tracks I P params σ ρ ρ' τ) {e e' : Expr ν}
    (hf : faithfulCall P n params e = true)
    (he : ∀ f args, e.strip = .call f args → e'.strip = .call f (args.map τ))
    (fin : Option String) :
    ∃ c, (effSubstCall P n σ e' fin).call = some c ∧ Prescribes I P ρ' e [c.run I ρ] := by
  induction n generalizing params σ ρ' τ e e' fin with
  | zero => exact absurd hf Bool.false_ne_true
  | succ n ih =>
    unfold faithfulCall at hf
    split at hf
    · next f args hstrip =>
      rw [Bool.and_eq_true] at hf
      obtain ⟨hcov, hf⟩ := hf
      have hvals := ht.args args hcov
      have he' := he _ _ hstrip
      cases hx : P.isExtern f with
      | true =>
        refine ⟨_, congrArg Sub.call (effSubstCall_foreign he' hx fin), .of_strip ?_⟩
        rw [hstrip, Call.run, hvals]
        exact .foreign hx
      | false =>
        rw [hx, Bool.false_or] at hf
        cases hg : P.func f with
        | none =>
          rw [hg] at hf
          exact absurd hf Bool.false_ne_true
        | some g =>
          rw [hg, Bool.and_eq_true, Bool.and_eq_true] at hf
          obtain ⟨⟨heff, hlen⟩, hbody⟩ := hf
          have hlen' : (substArgs σ (args.map τ)).length = g.params.length := by
            rw [substArgs_eq_map, List.length_map, List.length_map]
            exact beq_iff_eq.mp hlen
          have htr := tracks_id (I := I) (binds_actual hρ hlen')
          rw [effSubstCall_build he' hx hg heff]
          obtain ⟨c, hcall, hpre⟩ := ih htr hbody (htr.strip _) (fin.or (splitFmap P g.body).2)
          refine ⟨c, hcall, .of_strip ?_⟩
          rw [hstrip]
          rw [hvals] at hpre
          exact .build hx hg (.of_splitFmap hpre)
    · exact absurd hf Bool.false_ne_true

/-- Nothing but a call by name resolves. -/
theorem effSubstCall_none {n : Nat} {e : Expr ν} {f : Callee} {args : List (Expr ν)}
    (he : e.strip = .call f args) (hf : ∀ g, f ≠ .named g) (fin : Option String) :
    (effSubstCall P n σ e fin).call = none := by
  cases n with
  | zero => rfl
  | succ n =>
    cases f with
    | named g => exact absurd rfl (hf g)
    | _ => simp only [effSubstCall, he]

theorem isPure_strip {e : Expr ν} (h : isPure e = true) : ∃ args, e = .call .pure args := by
  unfold isPure at h
  split at h
  · next args => exact ⟨args, rfl⟩
  · exact absurd h Bool.false_ne_true

theorem faithfulCall_named {n : Nat} {e : Expr ν} (h : faithfulCall P n params e = true) :
    ∃ f args, e.strip = .call (.named f) args := by
  cases n with
  | zero => exact absurd h Bool.false_ne_true
  | succ n =>
    unfold faithfulCall at h
    split at h
    · next f args he => exact ⟨f, args, he⟩
    · exact absurd h Bool.false_ne_true

theorem inlineRest_seq {n : Nat} {a b : Expr ν} {f : String} {args : List (Expr ν)}
    (hb : b.strip = .call (.named f) args) (fin : Option String) :
    (inlineRest P n σ (.call .seq [a, b]) none fin).lead = (effSubstCall P n σ a none).call ∧
      (inlineRest P n σ (.call .seq [a, b]) none fin).main =
        (effSubstCall P n σ b fin).call.map .one := by
  simp only [inlineRest, inlineMain]
  split
  · cases hb
  · exact ⟨rfl, rfl⟩

theorem inlineRest_cond (n : Nat) (σ : String → Option (Expr ν)) (e : Expr ν)
    (cond : Option (Expr ν)) (fin : Option String) :
    inlineRest P n σ e cond fin = { inlineRest P n σ e none fin with cond := cond } := by
  unfold inlineRest inlineMain
  split <;> split <;> rfl

theorem run_one {b : Build ν} {c : Call ν} {t : Trace ν} (hm : b.main = some (.one c))
    (hc : b.cond = none) (h : runBuild I ρ b = some t) :
    t = (b.lead.toList ++ [c]).map (Call.run I ρ) := by
  unfold runBuild at h
  rw [hm, hc] at h
  cases he : b.err with
  | true =>
    rw [he] at h
    cases h
  | false =>
    rw [he] at h
    exact (Option.some.inj h).symm

theorem run_zip {b : Build ν} {cs : List (Call ν)} {t : Trace ν} (hm : b.main = some (.zip cs))
    (hc : b.cond = none) (h : runBuild I ρ b = some t) : t = cs.map (Call.run I ρ) := by
  unfold runBuild at h
  rw [hm, hc] at h
  cases he : b.err with
  | true =>
    rw [he] at h
    cases h
  | false =>
    rw [he] at h
    exact (Option.some.inj h).symm

theorem run_none {b : Build ν} (hm : b.main = none) (t : Trace ν) : runBuild I ρ b ≠ some t := by
  unfold runBuild
  rw [hm]
  cases b.err <;> exact fun h => nomatch h

/-- A guard is put around a build that had none. -/
theorem run_guard {b : Build ν} (hb : b.cond = none) {c : Expr ν} {t : Trace ν}
    (h : runBuild I ρ { b with cond := some c } = some t) :
    (I.truth (eval I ρ c) = true ∧ runBuild I ρ b = some t) ∨
      (I.truth (eval I ρ c) = false ∧ t = []) := by
  unfold runBuild at h ⊢
  rw [hb]
  cases he : b.err with
  | true =>
    simp only [he] at h
    cases h
  | false =>
    cases hm : b.main with
    | none =>
      simp only [he, hm] at h
      cases h
    | some m =>
      cases m with
      | zip cs =>
        simp only [he, hm] at h
        cases h
      | one call =>
        simp only [he, hm] at h
        cases htruth : I.truth (eval I ρ c) with
        | true =>
          rw [htruth, if_pos rfl] at h
          exact .inl ⟨rfl, h⟩
        | false =>
          rw [htruth] at h
          exact .inr ⟨rfl, (Option.some.inj h).symm⟩

include hρ in
theorem zipCalls_exact (n : Nat) (ht : Tracks I P params σ ρ ρ' τ) {es : List (Expr ν)}
    (hf : ∀ e ∈ es, faithfulCall P n params e = true) :
    ∃ cs : List (Call ν),
      (es.map fun e => effSubstCall P n σ (τ e) none).mapM Sub.call = some cs ∧
        List.Forall₂ (Prescribes I P ρ') es (cs.map fun c => [c.run I ρ]) := by
  induction es with
  | nil => exact ⟨[], rfl, .nil⟩
  | cons e es ih =>
    obtain ⟨c, hc, hpre⟩ := effSubstCall_exact hρ n ht (hf e List.mem_cons_self) (ht.strip e) none
    obtain ⟨cs, hcs, hall⟩ := ih fun e' he' => hf e' (List.mem_cons_of_mem _ he')
    refine ⟨c :: cs, ?_, .cons hpre hall⟩
    rw [List.map_cons, List.mapM_cons, hc, hcs]
    rfl

include hρ in
/-- The part from `seq` on. -/
theorem inlineRest_exact (n : Nat) (ht : Tracks I P params σ ρ ρ' τ) {e e' : Expr ν}
    (hf : faithfulRest P n params e = true) (hs : e.strip = e)
    (he : ∀ f args, e = .call f args → e' = .call f (args.map τ)) {fin : Option String}
    {t : Trace ν} (hrun : runBuild I ρ (inlineRest P n σ e' none fin) = some t) :
    Prescribes I P ρ' e t := by
  unfold faithfulRest at hf
  split at hf
  · next a b =>
    rw [Bool.and_eq_true, Bool.or_eq_true] at hf
    obtain ⟨hfa, hfb⟩ := hf
    rw [he _ _ rfl] at hrun
    obtain ⟨f, args, hb⟩ := faithfulCall_named hfb
    obtain ⟨hlead, hmain⟩ := inlineRest_seq (P := P) (n := n) (σ := σ) (a := τ a)
      (ht.strip b _ _ hb) fin
    obtain ⟨cb, hcb, hpb⟩ := effSubstCall_exact hρ n ht hfb (ht.strip b) fin
    rw [hcb] at hmain
    have htr := run_one hmain (congrArg Build.cond (inlineRest_cond n σ _ none fin)) hrun
    rw [hlead] at htr
    rcases hfa with hpure | hfa
    · obtain ⟨pargs, hp⟩ := isPure_strip hpure
      rw [effSubstCall_none (ht.strip a _ _ hp) fun g h => by cases h] at htr
      rw [htr]
      exact .seq (.of_strip (.pure hpure)) hpb
    · obtain ⟨ca, hca, hpa⟩ := effSubstCall_exact hρ n ht hfa (ht.strip a) none
      rw [hca] at htr
      rw [htr]
      exact .seq hpa hpb
  · next es =>
    rw [Bool.and_eq_true, decide_eq_true_eq] at hf
    obtain ⟨hlen, hall⟩ := hf
    rw [he _ _ rfl] at hrun
    obtain ⟨cs, hcs, hpre⟩ := zipCalls_exact hρ n ht (List.all_eq_true.mp hall)
    have hshort : ∀ as : List (Expr ν),
        (effSubstCall P n σ (.call .zip as) fin).call.map Main.one = none := by
      intro as
      rw [effSubstCall_none rfl fun g h => by cases h]
      rfl
    cases es with
    | nil => exact absurd hrun (run_none (hshort _) t)
    | cons e₁ es =>
      cases es with
      | nil => exact absurd hrun (run_none (hshort _) t)
      | cons e₂ es =>
        have hmain : (inlineRest P n σ (.call .zip ((e₁ :: e₂ :: es).map τ)) none fin).main =
            some (.zip cs) := by
          show (zipCalls P n σ ((e₁ :: e₂ :: es).map τ)).1.map Main.zip = _
          rw [zipCalls, List.take_of_length_le (by rwa [List.length_map]), List.map_map]
          exact congrArg (Option.map Main.zip) hcs
        rw [run_zip hmain rfl hrun]
        have hflat : cs.map (Call.run I ρ) = (cs.map fun c => [c.run I ρ]).flatten := by
          rw [← List.flatMap_def, List.map_eq_flatMap]
        rw [hflat]
        exact .zip hpre
  · obtain ⟨f, args, hcall⟩ := faithfulCall_named hf
    rw [hs] at hcall
    have hstrip : ∀ f args, e.strip = .call f args → e'.strip = .call f (args.map τ) := by
      intro f args h
      rw [he f args (hs.symm.trans h)]
      rfl
    obtain ⟨c, hc, hpre⟩ := effSubstCall_exact hρ n ht hf hstrip fin
    rw [he _ _ hcall] at hrun hc
    have hmain : (inlineRest P n σ (.call (.named f) (args.map τ)) none fin).main =
        some (.one c) := congrArg (Option.map Main.one) hc
    rw [run_one hmain rfl hrun]
    exact hpre

/-- A body that is not guarded gives a build without a guard. -/
theorem inlineBuild_cond {n : Nat} {f : Func ν} (h : isSelect (splitFmap P f.body).1.strip = false)
    (args : List (Expr ν)) : (inlineBuild P n f args).cond = none := by
  cases n with
  | zero => rfl
  | succ n =>
    simp only [inlineBuild]
    split
    · next hb =>
      rw [hb] at h
      exact absurd h Bool.noConfusion
    · next hb =>
      rw [hb] at h
      exact absurd h Bool.noConfusion
    · exact congrArg Build.cond (inlineRest_cond n _ _ none _)

theorem mem_of_actual {args : List (Expr ν)} {x : String} {a : Expr ν}
    (h : actual params args x = some a) : a ∈ args := by
  rw [actual] at h
  induction params generalizing args with
  | nil => cases h
  | cons p ps ih =>
    cases args with
    | nil => cases h
    | cons b bs =>
      rw [List.zip_cons_cons, List.lookup_cons] at h
      split at h
      · cases h
        exact List.mem_cons_self
      · exact List.mem_cons_of_mem _ (ih h)

theorem settled_of_mem {es : List (Expr ν)} (h : settledAll σ es = true) :
    ∀ e ∈ es, settled σ e = true := by
  induction es with
  | nil => exact fun _ he => absurd he List.not_mem_nil
  | cons e es ih =>
    rw [settledAll, Bool.and_eq_true] at h
    exact List.forall_mem_cons.mpr ⟨h.1, ih h.2⟩

theorem faithfulRest_call {n : Nat} {e : Expr ν} (h : faithfulRest P n params e = true)
    (hs : e.strip = e) : ∃ f args, e = .call f args := by
  unfold faithfulRest at h
  split at h
  · exact ⟨_, _, rfl⟩
  · exact ⟨_, _, rfl⟩
  · obtain ⟨f, args, he⟩ := faithfulCall_named h
    exact ⟨_, _, hs.symm.trans he⟩

/-- Under a guard, what is no builder is inlined as it is after the first substitution. -/
theorem inlineSelect_rest {build : Func ν → List (Expr ν) → Build ν} {n : Nat} {c t : Expr ν}
    {f : Callee} {args : List (Expr ν)} (ht : t.strip = .call f args)
    (hf : ∀ h, f = .named h → P.func h = none) (fin : Option String) :
    inlineSelect P build n σ c t fin =
      inlineRest P n σ (.call f (args.map (substArg σ))) (some (substArg σ c)) fin := by
  simp only [inlineSelect, strip_substArg ht]
  cases f with
  | named h => simp only [hf h rfl]
  | _ => rfl

include hρ in
theorem rest_guarded {n : Nat} {f : Func ν} {args : List (Expr ν)} {c t : Expr ν}
    {build : Func ν → List (Expr ν) → Build ν} (hb : Binds I P f.params (actual f.params args) ρ ρ')
    (hc : covered P f.params c = true) (hs : settledAll (actual f.params args) args = true)
    (hf : faithfulRest P n f.params t.strip = true)
    (hno : ∀ h targs, t.strip = .call (.named h) targs → P.func h = none) {fin : Option String}
    {tr : Trace ν}
    (hrun : runBuild I ρ (inlineSelect P build n (actual f.params args) c t fin) = some tr) :
    Guarded I P ρ' c t tr := by
  obtain ⟨g, targs, ht⟩ := faithfulRest_call hf (strip_idem t)
  rw [inlineSelect_rest ht (fun h hh => hno h targs (hh ▸ ht)), inlineRest_cond] at hrun
  have htr := tracks_substArg hb fun x a ha => settled_of_mem hs a (mem_of_actual ha)
  have hcond := eval_substArg hb c hc
  rcases run_guard (congrArg Build.cond (inlineRest_cond n _ _ none fin)) hrun
    with ⟨h, hr⟩ | ⟨h, rfl⟩
  · rw [hcond] at h
    refine .inl ⟨h, .of_strip (inlineRest_exact hρ n htr hf (strip_idem t) ?_ hr)⟩
    intro g' targs' h'
    rw [ht] at h'
    cases h'
    rfl
  · rw [hcond] at h
    exact .inr ⟨h, rfl⟩

include hρ in
theorem select_exact {n : Nat} {f : Func ν} {args : List (Expr ν)}
    (ih : ∀ (g : Func ν) (as : List (Expr ν)) (t : Trace ν), faithful P n g as = true →
      runBuild I ρ (inlineBuild P n g as) = some t →
      Prescribes I P (bindEnv P g.params (evalAll I ρ as)) g.body t)
    (hb : Binds I P f.params (actual f.params args) ρ ρ') {c t : Expr ν} {fin : Option String}
    (hf : faithfulSelect P (faithful P n) n f args c t = true) {tr : Trace ν}
    (hrun : runBuild I ρ (inlineSelect P (inlineBuild P n) n (actual f.params args) c t fin) =
      some tr) :
    Guarded I P ρ' c t tr := by
  rw [faithfulSelect, Bool.and_eq_true] at hf
  obtain ⟨hc, hf⟩ := hf
  split at hf
  · next h targs ht =>
    split at hf
    · next g hg =>
      simp only [Bool.and_eq_true, Bool.not_eq_true'] at hf
      obtain ⟨⟨⟨hx, hcov⟩, hsel⟩, hrec⟩ := hf
      simp only [inlineSelect, strip_substArg ht, hg, ← substArgs_eq_map] at hrun
      have hcond := eval_substArg hb c hc
      rcases run_guard (inlineBuild_cond hsel _) hrun with ⟨htrue, hr⟩ | ⟨hfalse, rfl⟩
      · rw [hcond] at htrue
        refine .inl ⟨htrue, .of_strip ?_⟩
        have hpre := ih g _ tr hrec hr
        rw [evalAll_substArgs hb targs hcov] at hpre
        rw [ht]
        exact .build hx hg hpre
      · rw [hcond] at hfalse
        exact .inr ⟨hfalse, rfl⟩
    · next hg =>
      rw [Bool.and_eq_true] at hf
      refine rest_guarded hρ hb hc hf.1 (ht ▸ hf.2) ?_ hrun
      intro h' targs' h''
      rw [ht] at h''
      cases h''
      exact hg
  · next e hno =>
    rw [Bool.and_eq_true] at hf
    exact rest_guarded hρ hb hc hf.1 hf.2 (fun h targs ht => absurd ht (hno h targs)) hrun

include hρ in
theorem inlineBuild_exact (n : Nat) (f : Func ν) (args : List (Expr ν)) (t : Trace ν)
    (hf : faithful P n f args = true) (hrun : runBuild I ρ (inlineBuild P n f args) = some t) :
    Prescribes I P (bindEnv P f.params (evalAll I ρ args)) f.body t := by
  induction n generalizing f args t with
  | zero => exact absurd hf Bool.false_ne_true
  | succ n ih =>
    rw [faithful, Bool.and_eq_true, beq_iff_eq] at hf
    obtain ⟨hlen, hf⟩ := hf
    have hb := binds_actual (I := I) hρ hlen
    refine .of_splitFmap (.of_strip ?_)
    simp only [inlineBuild] at hrun
    split at hf
    · next c e other hbody =>
      simp only [hbody] at hrun ⊢
      split at hrun
      · next hpure => exact (select_exact hρ ih hb hf hrun).ifS (.of_strip (.pure hpure))
      · exact absurd hrun (run_none rfl t)
    · next c e hbody =>
      simp only [hbody] at hrun ⊢
      exact (select_exact hρ ih hb hf hrun).whenS
    · next e h₁ h₂ =>
      split at hrun
      · next hbody => exact absurd hbody (h₁ _ _ _)
      · next hbody => exact absurd hbody (h₂ _ _)
      · refine inlineRest_exact hρ n (tracks_id hb) hf (strip_idem _) ?_ hrun
        intro g gargs hg
        rw [List.map_id]
        exact hg

end Exact

/-! ## Depth -/

section Depth

variable {P : Program ν} {σ : String → Option (Expr ν)} {params : List String}

theorem faithfulCall_succ {n : Nat} {e : Expr ν} (h : faithfulCall P n params e = true) :
    faithfulCall P (n + 1) params e = true := by
  induction n generalizing params e with
  | zero => exact absurd h Bool.false_ne_true
  | succ n ih =>
    unfold faithfulCall at h ⊢
    split at h
    · next f args he =>
      rw [Bool.and_eq_true, Bool.or_eq_true] at h ⊢
      refine ⟨h.1, h.2.imp_right fun h => ?_⟩
      cases hg : P.func f with
      | none =>
        rw [hg] at h
        exact absurd h Bool.false_ne_true
      | some g =>
        rw [hg, Bool.and_eq_true] at h
        rw [Bool.and_eq_true]
        exact ⟨h.1, ih h.2⟩
    · exact absurd h Bool.false_ne_true

theorem faithfulRest_succ {n : Nat} {e : Expr ν} (h : faithfulRest P n params e = true) :
    faithfulRest P (n + 1) params e = true := by
  unfold faithfulRest at h ⊢
  split at h
  · rw [Bool.and_eq_true, Bool.or_eq_true] at h ⊢
    exact ⟨h.1.imp_right faithfulCall_succ, faithfulCall_succ h.2⟩
  · rw [Bool.and_eq_true, List.all_eq_true] at h ⊢
    exact ⟨h.1, fun e he => faithfulCall_succ (h.2 e he)⟩
  · exact faithfulCall_succ h

theorem faithfulSelect_succ {b b' : Func ν → List (Expr ν) → Bool} {n : Nat} {f : Func ν}
    {args : List (Expr ν)} {c t : Expr ν} (hb : ∀ g as, b g as = true → b' g as = true)
    (h : faithfulSelect P b n f args c t = true) :
    faithfulSelect P b' (n + 1) f args c t = true := by
  rw [faithfulSelect, Bool.and_eq_true] at h ⊢
  refine ⟨h.1, ?_⟩
  have h := h.2
  split at h
  · split at h
    · rw [Bool.and_eq_true] at h ⊢
      exact ⟨h.1, hb _ _ h.2⟩
    · rw [Bool.and_eq_true] at h ⊢
      exact ⟨h.1, faithfulRest_succ h.2⟩
  · rw [Bool.and_eq_true] at h ⊢
    exact ⟨h.1, faithfulRest_succ h.2⟩

theorem faithful_succ {n : Nat} {f : Func ν} {args : List (Expr ν)}
    (h : faithful P n f args = true) : faithful P (n + 1) f args = true := by
  induction n generalizing f args with
  | zero => exact absurd h Bool.false_ne_true
  | succ n ih =>
    rw [faithful, Bool.and_eq_true] at h ⊢
    refine ⟨h.1, ?_⟩
    have h := h.2
    split at h
    · exact faithfulSelect_succ (fun g as => ih) h
    · exact faithfulSelect_succ (fun g as => ih) h
    · exact faithfulRest_succ h

theorem effSubstCall_succ {n : Nat} {e : Expr ν} {fin : Option String}
    (h : (effSubstCall P n σ e fin).err = false) :
    effSubstCall P (n + 1) σ e fin = effSubstCall P n σ e fin := by
  induction n generalizing σ e fin with
  | zero => exact absurd h Bool.noConfusion
  | succ n ih =>
    unfold effSubstCall at h ⊢
    split at h
    · simp only
      split at h
      · next hx => rw [if_pos hx, if_pos hx]
      · next hx =>
        rw [if_neg hx, if_neg hx]
        split at h
        · split at h
          · next heff =>
            rw [if_pos heff, if_pos heff]
            split at h
            · rw [Bool.or_eq_false_iff] at h
              rw [ih h.1]
            · exact ih h
          · next heff => rw [if_neg heff, if_neg heff]
        · rfl
    · rfl

theorem zipCalls_succ {n : Nat} {es : List (Expr ν)} (h : (zipCalls P n σ es).2 = false) :
    zipCalls P (n + 1) σ es = zipCalls P n σ es := by
  have hsubs : (es.take 16).map (fun e => effSubstCall P (n + 1) σ e none) =
      (es.take 16).map fun e => effSubstCall P n σ e none := by
    refine List.map_congr_left fun e he => effSubstCall_succ ?_
    have hall := List.any_eq_false.mp h (effSubstCall P n σ e none) (List.mem_map_of_mem he)
    rwa [Bool.not_eq_true] at hall
  rw [zipCalls, zipCalls, hsubs]

theorem inlineMain_succ {n : Nat} {lead : Option (Call ν)} {err : Bool} {e : Expr ν}
    {cond : Option (Expr ν)} {fin : Option String}
    (h : (inlineMain P n σ lead err e cond fin).err = false) :
    inlineMain P (n + 1) σ lead err e cond fin = inlineMain P n σ lead err e cond fin := by
  unfold inlineMain at h ⊢
  split at h
  · simp only [zipCalls_succ (Bool.or_eq_false_iff.mp h).2]
  · simp only [effSubstCall_succ (Bool.or_eq_false_iff.mp h).2]

theorem inlineMain_err {n : Nat} {lead : Option (Call ν)} {err : Bool} {e : Expr ν}
    {cond : Option (Expr ν)} {fin : Option String}
    (h : (inlineMain P n σ lead err e cond fin).err = false) : err = false := by
  unfold inlineMain at h
  split at h
  · exact (Bool.or_eq_false_iff.mp h).1
  · exact (Bool.or_eq_false_iff.mp h).1

theorem inlineRest_succ {n : Nat} {e : Expr ν} {cond : Option (Expr ν)} {fin : Option String}
    (h : (inlineRest P n σ e cond fin).err = false) :
    inlineRest P (n + 1) σ e cond fin = inlineRest P n σ e cond fin := by
  unfold inlineRest at h ⊢
  split at h
  · simp only [effSubstCall_succ (inlineMain_err h)]
    exact inlineMain_succ h
  · exact inlineMain_succ h

theorem inlineSelect_succ {b b' : Func ν → List (Expr ν) → Build ν} {n : Nat} {c t : Expr ν}
    {fin : Option String} (hb : ∀ g as, (b g as).err = false → b' g as = b g as)
    (h : (inlineSelect P b n σ c t fin).err = false) :
    inlineSelect P b' (n + 1) σ c t fin = inlineSelect P b n σ c t fin := by
  unfold inlineSelect at h ⊢
  simp only at h ⊢
  split at h
  · split at h
    · rw [hb _ _ h]
    · exact inlineRest_succ h
  · exact inlineRest_succ h

theorem inlineBuild_succ {n : Nat} {f : Func ν} {args : List (Expr ν)}
    (h : (inlineBuild P n f args).err = false) :
    inlineBuild P (n + 1) f args = inlineBuild P n f args := by
  induction n generalizing f args with
  | zero => exact absurd h Bool.noConfusion
  | succ n ih =>
    rw [inlineBuild] at h ⊢
    rw [inlineBuild]
    simp only at h ⊢
    split at h
    · split at h
      · next hp =>
        rw [if_pos hp, if_pos hp]
        exact inlineSelect_succ (fun g as => ih) h
      · next hp => rw [if_neg hp, if_neg hp]
    · exact inlineSelect_succ (fun g as => ih) h
    · exact inlineRest_succ h

theorem err_of_run {I : Interp ν} {ρ : String → ν} {b : Build ν} {t : Trace ν}
    (h : runBuild I ρ b = some t) : b.err = false := by
  cases he : b.err with
  | false => rfl
  | true =>
    unfold runBuild at h
    rw [he] at h
    cases h

end Depth

end Model

/-! ## Integers as values -/

def ints : Interp Int where
  field v _ := v
  call _ vs := vs.headD 0
  binary
    | .add, a, b => a + b
    | .sub, a, b => a - b
    | .mul, a, b => a * b
    | .eq, a, b => if a = b then 1 else 0
    | _, a, _ => a
  form
    | .neg, vs => -vs.headD 0
    | _, vs => vs.headD 0
  truth v := v != 0

/-- `return seq(write(1, message), exit(1));` -/
def failFunc : Func Int :=
  ⟨["message"], true, .call .seq [.call (.named "write") [.literal 1, .name "message"],
    .call (.named "exit") [.literal 1]]⟩

/-- `return whenS(condition == 0, fail(message));` -/
def assertFunc : Func Int :=
  ⟨["condition", "message"], true, .call .whenS [.binary .eq (.name "condition") (.literal 0),
    .call (.named "fail") [.name "message"]]⟩

/-- `return put(-x);` -/
def putNeg : Func Int := ⟨["x"], true, .call (.named "put") [.form .neg [.name "x"]]⟩

def library : Program Int where
  isExtern f := f == "write" || f == "exit" || f == "put"
  func f := if f = "fail" then some failFunc else none
  isConst _ := false
  const _ := 0

end Arche.Codegen.EffFusion
