import Mathlib.Data.List.Basic

/-!
# Folding the schedule of a program

`#run` names a schedule, and the front end folds it to a constant tree
(`semantic_try_const_schedule` of semantic.c). The constructors `seq`, `par`,
`loop`, `when` and `halt` build nodes, any other name is a system to run, and a
call of a func is replaced by the expression the func returns. The arguments of
such a call are kept as they are written, in one list for all calls under way, and
a name is looked up from the end of that list.

`Denotes` says what the expression means: a parameter stands for the argument of
its own call, read where the call is written.

* The outer `Option` of `foldSched` is `none` while the fold is under way.
* The callee of a call is the name the front end resolved it to.

1. `runFolds_of_captureFree`: the fold ends, and its tree is the one the
   expression denotes, as long as every name the evaluation meets finds in the
   list the argument lexical scoping gives it, and a name handed to `when` or
   `gpu.sync` is the name it denotes.
2. `not_runFolds`: `forever(s)` of a system named `s` is folded forever, since
   `s` is also the name of the parameter.
-/

namespace Arche.Semantic.Schedule

/-! ## The tree -/

/-- Expressions in schedule position. `name head full` is a name, a field access or a chain on a nested
base: `head` is its leftmost segment (`sv_name_expr_dup`), `full` its text. `field` is the only
field name of a call, if it has one. `other` has a leftmost segment where it starts with a name. -/
inductive Expr
  | name (head : Option String) (full : String)
  | paren (e : Expr)
  | call (head field callee : Option String) (args : List Expr)
  | arrayLit (es : List Expr)
  | other (head : Option String)
deriving Inhabited

/-- Statements of a func body. `other` is any statement but a bind and a return. -/
inductive Stmt
  | bind (x : String) (e : Expr)
  | ret (e : Option Expr)
  | other

/-- A func or a proc. An extern has no body. -/
structure Callable where
  name : String
  isFunc : Bool := true
  params : List String
  body : Option (List Stmt)

/-- The callables in declaration order, and whether `halt` is a constructor of a sum. -/
structure Program where
  callables : List Callable
  haltIsCtor : Bool := true

/-- `find_callable_sig`. -/
def Program.findCallableSig (P : Program) (name : String) : Option Callable :=
  P.callables.find? (·.name == name)

/-- `ScheduleTree`. -/
inductive Tree
  | run (sym : String)
  | halt
  | gpuSync (sym : Option String)
  | seq (children : List Tree)
  | par (children : List Tree)
  | loop (child : Tree)
  | whenT (sym : Option String) (child : Tree)

/-- The leftmost segment of an expression (`sv_name_expr_dup`). -/
def Expr.head : Expr → Option String
  | name head _ => head
  | call head _ _ _ => head
  | other head => head
  | paren _ => none
  | arrayLit _ => none

/-- What a call is by the name of its callee and its arguments. `malformed` is a `seq` or `par` of
anything but an array literal. -/
inductive Form
  | seq (es : List Expr)
  | par (es : List Expr)
  | loop (e : Expr)
  | whenF (p e : Expr)
  | combinator
  | malformed

def form (callee : String) (args : List Expr) : Form :=
  match callee, args with
  | "seq", [.arrayLit es] => .seq es
  | "par", [.arrayLit es] => .par es
  | "seq", [_] => .malformed
  | "par", [_] => .malformed
  | "loop", [e] => .loop e
  | "when", [p, e] => .whenF p e
  | _, _ => .combinator

/-- The argument of a `gpu.sync(Pool)`. -/
def syncArg (head field : Option String) (args : List Expr) : Option Expr :=
  match args with
  | [a] => if head = some "gpu" ∧ field = some "sync" then some a else none
  | _ => none

/-! ## The fold -/

/-- `SchedScope.binds`, the newest first. -/
abbrev Scope := List (String × Expr)

/-- The lookup from the end of `binds`. -/
def Scope.find (σ : Scope) (x : String) : Option Expr :=
  match σ with
  | [] => none
  | (y, a) :: σ => if y = x then some a else Scope.find σ x

/-- The parameters bound to the arguments, in order. -/
def Scope.push : List String → List Expr → Scope → Scope
  | p :: ps, a :: as, σ => push ps as ((p, a) :: σ)
  | _, _, σ => σ

/-- `func_return_expr`: the value of the first return. -/
def returnExpr : List Stmt → Option Expr
  | [] => none
  | .ret e :: _ => e
  | .bind _ _ :: rest => returnExpr rest
  | .other :: rest => returnExpr rest

/-- The func a call is replaced by and the expression it returns, if the call is within the limits. -/
def Program.inlined (P : Program) (σ : Scope) (callee : String) (args : List Expr) :
    Option (Callable × Expr) := do
  let fn ← P.findCallableSig callee
  let body ← fn.body
  let e ← returnExpr body
  if fn.isFunc ∧ fn.params.length = args.length ∧ σ.length + args.length ≤ 32 then some (fn, e) else none

/-- The children of a node, up to the first that does not fold. -/
def foldEach (fold : Expr → Option (Option Tree)) : List Expr → Option (Option (List Tree))
  | [] => some (some [])
  | e :: es =>
    match fold e with
    | none => none
    | some none => some none
    | some (some t) => (foldEach fold es).map (·.map (t :: ·))

/-- `CTFE_MAX_DEPTH`. -/
def maxDepth : Nat := 64

/-- The body of `fold_sched`; `fold` is the recursive call, by depth and list. -/
def foldStep (P : Program) (fold : Nat → Scope → Expr → Option (Option Tree)) (depth : Nat) (σ : Scope)
    (e : Expr) : Option (Option Tree) :=
  if depth > maxDepth then some none
  else match e with
    | .paren e => fold depth σ e
    | .name head full =>
      match head.bind σ.find with
      | some a => fold depth σ a
      | none =>
        if P.haltIsCtor ∧ head = some "halt" then some (some .halt) else some (some (.run full))
    | .call head field callee args =>
      match syncArg head field args with
      | some a => some (some (.gpuSync a.head))
      | none =>
        match callee with
        | none => some none
        | some c =>
          match form c args with
          | .seq es => (foldEach (fold depth σ) es).map (·.map .seq)
          | .par es => (foldEach (fold depth σ) es).map (·.map .par)
          | .loop e => (fold depth σ e).map (·.map .loop)
          | .whenF p e => (fold depth σ e).map (·.map (.whenT p.head))
          | .malformed => some none
          | .combinator =>
            match P.inlined σ c args with
            | none => some none
            -- only here does the depth advance
            | some (fn, e) => fold (depth + 1) (Scope.push fn.params args σ) e
    | .arrayLit _ => some none
    | .other _ => some none

/-- `fold_sched`. -/
def foldSched (P : Program) : Nat → Nat → Scope → Expr → Option (Option Tree)
  | 0 => fun _ _ _ => none
  | fuel + 1 => foldStep P (foldSched P fuel)

/-- `semantic_try_const_schedule` of a `#run` with the given entries. -/
def tryConstSchedule (P : Program) (fuel : Nat) : List Expr → Option (Option Tree)
  | [e] => foldSched P fuel 0 [] e
  | es => (foldEach (foldSched P fuel 0 []) es).map (·.map .seq)

/-! ## What a schedule denotes -/

/-- Lexical environments: a name, the expression it is bound to and the environment that expression
is written in. -/
inductive Env
  | nil
  | bind (x : String) (e : Expr) (written rest : Env)

def Env.find : Env → String → Option (Expr × Env)
  | nil, _ => none
  | bind y e written rest, x => if y = x then some (e, written) else rest.find x

/-- The environment of a func body: its own parameters and nothing else. -/
def Env.frame (written : Env) : List String → List Expr → Env → Env
  | p :: ps, a :: as, ρ => frame written ps as (.bind p a written ρ)
  | _, _, ρ => ρ

/-- The expression a straight-line body returns, with the environment it is returned in. -/
inductive Returns : Env → List Stmt → Expr → Env → Prop
  | ret (ρ : Env) (e : Expr) (rest : List Stmt) : Returns ρ (.ret (some e) :: rest) e ρ
  | bind {ρ ρ' : Env} {x : String} {e e' : Expr} {rest : List Stmt} :
      Returns (.bind x e ρ ρ) rest e' ρ' → Returns ρ (.bind x e :: rest) e' ρ'

/-- The name an argument of `when` or `gpu.sync` denotes. -/
inductive Names : Env → Expr → String → Prop
  | param {ρ ρ' : Env} {x y : String} {e : Expr} :
      ρ.find x = some (e, ρ') → Names ρ' e y → Names ρ (.name (some x) x) y
  | free {ρ : Env} {head : Option String} {full : String} :
      head.bind ρ.find = none → Names ρ (.name head full) full
  | paren {ρ : Env} {e : Expr} {x : String} : Names ρ e x → Names ρ (.paren e) x

mutual

/-- `Denotes P ρ e t`: the expression `e`, written where `ρ` is in scope, is the schedule `t`. -/
inductive Denotes (P : Program) : Env → Expr → Tree → Prop
  | paren {ρ : Env} {e : Expr} {t : Tree} : Denotes P ρ e t → Denotes P ρ (.paren e) t
  | param {ρ ρ' : Env} {x : String} {e : Expr} {t : Tree} :
      ρ.find x = some (e, ρ') → Denotes P ρ' e t → Denotes P ρ (.name (some x) x) t
  | halt {ρ : Env} :
      P.haltIsCtor = true → ρ.find "halt" = none → Denotes P ρ (.name (some "halt") "halt") .halt
  | system {ρ : Env} {head : Option String} {full : String} :
      head.bind ρ.find = none → ¬ (P.haltIsCtor = true ∧ head = some "halt" ∧ full = "halt") →
      Denotes P ρ (.name head full) (.run full)
  | gpuSync {ρ : Env} {head field callee : Option String} {args : List Expr} {a : Expr} {x : String} :
      syncArg head field args = some a → Names ρ a x →
      Denotes P ρ (.call head field callee args) (.gpuSync (some x))
  | seq {ρ : Env} {head field : Option String} {c : String} {args es : List Expr} {ts : List Tree} :
      syncArg head field args = none → form c args = .seq es → DenotesEach P ρ es ts →
      Denotes P ρ (.call head field (some c) args) (.seq ts)
  | par {ρ : Env} {head field : Option String} {c : String} {args es : List Expr} {ts : List Tree} :
      syncArg head field args = none → form c args = .par es → DenotesEach P ρ es ts →
      Denotes P ρ (.call head field (some c) args) (.par ts)
  | loop {ρ : Env} {head field : Option String} {c : String} {args : List Expr} {e : Expr} {t : Tree} :
      syncArg head field args = none → form c args = .loop e → Denotes P ρ e t →
      Denotes P ρ (.call head field (some c) args) (.loop t)
  | whenD {ρ : Env} {head field : Option String} {c x : String} {args : List Expr} {p e : Expr}
      {t : Tree} :
      syncArg head field args = none → form c args = .whenF p e → Names ρ p x → Denotes P ρ e t →
      Denotes P ρ (.call head field (some c) args) (.whenT (some x) t)
  | combinator {ρ ρ' : Env} {head field : Option String} {c : String} {args : List Expr}
      {fn : Callable} {body : List Stmt} {e : Expr} {t : Tree} :
      syncArg head field args = none → form c args = .combinator →
      P.findCallableSig c = some fn → fn.isFunc = true → fn.params.length = args.length →
      fn.body = some body → Returns (Env.frame ρ fn.params args .nil) body e ρ' → Denotes P ρ' e t →
      Denotes P ρ (.call head field (some c) args) t

/-- The schedules of a list of expressions. -/
inductive DenotesEach (P : Program) : Env → List Expr → List Tree → Prop
  | nil {ρ : Env} : DenotesEach P ρ [] []
  | cons {ρ : Env} {e : Expr} {es : List Expr} {t : Tree} {ts : List Tree} :
      Denotes P ρ e t → DenotesEach P ρ es ts → DenotesEach P ρ (e :: es) (t :: ts)

end

/-- The schedule of a `#run` with the given entries. -/
def DenotesRun (P : Program) : List Expr → Tree → Prop
  | [e], t => Denotes P .nil e t
  | es, t => ∃ ts, DenotesEach P .nil es ts ∧ t = .seq ts

theorem Returns.unique {ρ ρ₁ ρ₂ : Env} {body : List Stmt} {e₁ e₂ : Expr} (h₁ : Returns ρ body e₁ ρ₁)
    (h₂ : Returns ρ body e₂ ρ₂) : e₁ = e₂ ∧ ρ₁ = ρ₂ := by
  induction h₁ with
  | ret ρ e rest =>
    cases h₂
    exact ⟨rfl, rfl⟩
  | bind _ ih =>
    cases h₂ with
    | bind h => exact ih h

theorem Names.unique {ρ : Env} {e : Expr} {x y : String} (hx : Names ρ e x) (hy : Names ρ e y) :
    x = y := by
  induction hx with
  | param hf _ ih =>
    cases hy with
    | param hf' h =>
      obtain ⟨rfl, rfl⟩ := Prod.mk.inj (Option.some.inj (hf.symm.trans hf'))
      exact ih h
    | free hn => exact absurd (hf.symm.trans hn) (by simp)
  | free hn =>
    cases hy with
    | param hf' _ => exact absurd (hf'.symm.trans hn) (by simp)
    | free _ => rfl
  | paren _ ih =>
    cases hy with
    | paren h => exact ih h

mutual

/-- An expression has at most one schedule. -/
theorem Denotes.unique {P : Program} {ρ : Env} {e : Expr} {t u : Tree} :
    Denotes P ρ e t → Denotes P ρ e u → t = u
  | .paren h, hu => by
    cases hu with
    | paren h' => exact h.unique h'
  | .param hf h, hu => by
    cases hu with
    | param hf' h' =>
      obtain ⟨rfl, rfl⟩ := Prod.mk.inj (Option.some.inj (hf.symm.trans hf'))
      exact h.unique h'
    | halt _ hn => exact absurd (hf.symm.trans hn) (by simp)
    | system hn _ => exact absurd (hf.symm.trans hn) (by simp)
  | .halt hc hn, hu => by
    cases hu with
    | param hf' _ => exact absurd (hf'.symm.trans hn) (by simp)
    | halt _ _ => rfl
    | system _ hh => exact absurd ⟨hc, rfl, rfl⟩ hh
  | .system hn hh, hu => by
    cases hu with
    | param hf' _ => exact absurd (hf'.symm.trans hn) (by simp)
    | halt hc _ => exact absurd ⟨hc, rfl, rfl⟩ hh
    | system _ _ => rfl
  | .gpuSync hs hx, hu => by
    cases hu with
    | gpuSync hs' hx' =>
      obtain rfl := Option.some.inj (hs.symm.trans hs')
      rw [hx.unique hx']
    | seq hs' | par hs' | loop hs' | whenD hs' | combinator hs' =>
      exact absurd (hs.symm.trans hs') (by simp)
  | .seq hs hf h, hu => by
    cases hu with
    | gpuSync hs' => exact absurd (hs'.symm.trans hs) (by simp)
    | seq _ hf' h' =>
      obtain rfl := Form.seq.inj (hf.symm.trans hf')
      rw [h.unique h']
    | par _ hf' | loop _ hf' | whenD _ hf' | combinator _ hf' =>
      exact absurd (hf.symm.trans hf') (by simp)
  | .par hs hf h, hu => by
    cases hu with
    | gpuSync hs' => exact absurd (hs'.symm.trans hs) (by simp)
    | par _ hf' h' =>
      obtain rfl := Form.par.inj (hf.symm.trans hf')
      rw [h.unique h']
    | seq _ hf' | loop _ hf' | whenD _ hf' | combinator _ hf' =>
      exact absurd (hf.symm.trans hf') (by simp)
  | .loop hs hf h, hu => by
    cases hu with
    | gpuSync hs' => exact absurd (hs'.symm.trans hs) (by simp)
    | loop _ hf' h' =>
      obtain rfl := Form.loop.inj (hf.symm.trans hf')
      rw [h.unique h']
    | seq _ hf' | par _ hf' | whenD _ hf' | combinator _ hf' =>
      exact absurd (hf.symm.trans hf') (by simp)
  | .whenD hs hf hx h, hu => by
    cases hu with
    | gpuSync hs' => exact absurd (hs'.symm.trans hs) (by simp)
    | whenD _ hf' hx' h' =>
      obtain ⟨rfl, rfl⟩ := Form.whenF.inj (hf.symm.trans hf')
      rw [hx.unique hx', h.unique h']
    | seq _ hf' | par _ hf' | loop _ hf' | combinator _ hf' =>
      exact absurd (hf.symm.trans hf') (by simp)
  | .combinator hs hf hfn _ _ hbody hret h, hu => by
    cases hu with
    | gpuSync hs' => exact absurd (hs'.symm.trans hs) (by simp)
    | combinator _ _ hfn' _ _ hbody' hret' h' =>
      obtain rfl := Option.some.inj (hfn.symm.trans hfn')
      obtain rfl := Option.some.inj (hbody.symm.trans hbody')
      obtain ⟨rfl, rfl⟩ := hret.unique hret'
      exact h.unique h'
    | seq _ hf' | par _ hf' | loop _ hf' | whenD _ hf' =>
      exact absurd (hf.symm.trans hf') (by simp)

theorem DenotesEach.unique {P : Program} {ρ : Env} {es : List Expr} {ts us : List Tree} :
    DenotesEach P ρ es ts → DenotesEach P ρ es us → ts = us
  | .nil, hu => by
    cases hu
    rfl
  | .cons h hes, hu => by
    cases hu with
    | cons h' hes' => rw [h.unique h', hes.unique hes']

end

/-- The fold of a `#run` ends, and a tree it returns is the one the entries denote. -/
def RunFolds (P : Program) (es : List Expr) : Prop :=
  (∃ fuel r, tryConstSchedule P fuel es = some r) ∧
  ∀ fuel t, tryConstSchedule P fuel es = some (some t) → DenotesRun P es t

/-! ## Evaluation without capture -/

/-- The children of `e`'s node that are evaluated in `e`'s own environment: those of an array literal
come in order, each after the ones before it have a schedule. -/
inductive Child (P : Program) (ρ : Env) : Expr → Expr → Prop
  | paren (e : Expr) : Child P ρ (.paren e) e
  | seq {head field : Option String} {c : String} {args pre post : List Expr} {e : Expr} :
      syncArg head field args = none → form c args = .seq (pre ++ e :: post) →
      (∀ d ∈ pre, ∃ t, Denotes P ρ d t) → Child P ρ (.call head field (some c) args) e
  | par {head field : Option String} {c : String} {args pre post : List Expr} {e : Expr} :
      syncArg head field args = none → form c args = .par (pre ++ e :: post) →
      (∀ d ∈ pre, ∃ t, Denotes P ρ d t) → Child P ρ (.call head field (some c) args) e
  | loop {head field : Option String} {c : String} {args : List Expr} {e : Expr} :
      syncArg head field args = none → form c args = .loop e →
      Child P ρ (.call head field (some c) args) e
  | whenC {head field : Option String} {c : String} {args : List Expr} {p e : Expr} :
      syncArg head field args = none → form c args = .whenF p e →
      Child P ρ (.call head field (some c) args) e

/-- `Meets P es depth σ ρ e`: evaluating the entries `es` under lexical scoping comes to `e`, written
in `ρ`, inside `depth` calls, when the list of the fold would be `σ`. -/
inductive Meets (P : Program) (es : List Expr) : Nat → Scope → Env → Expr → Prop
  | entry {pre post : List Expr} {e : Expr} :
      es = pre ++ e :: post → (∀ d ∈ pre, ∃ t, Denotes P .nil d t) → Meets P es 0 [] .nil e
  | child {depth : Nat} {σ : Scope} {ρ : Env} {e e' : Expr} :
      Meets P es depth σ ρ e → Child P ρ e e' → Meets P es depth σ ρ e'
  | param {depth : Nat} {σ : Scope} {ρ ρ' : Env} {x full : String} {e : Expr} :
      Meets P es depth σ ρ (.name (some x) full) → ρ.find x = some (e, ρ') → Meets P es depth σ ρ' e
  | call {depth : Nat} {σ : Scope} {ρ ρ' : Env} {head field : Option String} {c : String}
      {args : List Expr} {fn : Callable} {body : List Stmt} {e : Expr} :
      Meets P es depth σ ρ (.call head field (some c) args) → syncArg head field args = none →
      form c args = .combinator → depth < maxDepth → P.inlined σ c args = some (fn, e) →
      fn.body = some body → Returns (Env.frame ρ fn.params args .nil) body e ρ' →
      Meets P es (depth + 1) (Scope.push fn.params args σ) ρ' e

/-- What the fold relies on at one expression. -/
def Unmistaken (P : Program) (σ : Scope) (ρ : Env) : Expr → Prop
  | .name head full =>
    head.bind σ.find = (head.bind ρ.find).map Prod.fst ∧
    (((head.bind ρ.find).isSome ∨ (P.haltIsCtor = true ∧ head = some "halt")) → head = some full)
  | .call head field callee args =>
    match syncArg head field args with
    | some a => ∃ x, a.head = some x ∧ Names ρ a x
    | none => ∀ c, callee = some c → match form c args with
      | .whenF p _ => ∃ x, p.head = some x ∧ Names ρ p x
      | .combinator => ∀ fn e body, P.inlined σ c args = some (fn, e) → fn.body = some body →
          ∃ ρ', Returns (Env.frame ρ fn.params args .nil) body e ρ'
      | _ => True
  | _ => True

/-- No name is captured: the evaluation meets only expressions the fold reads right. -/
def CaptureFree (P : Program) (es : List Expr) : Prop :=
  ∀ depth σ ρ e, Meets P es depth σ ρ e → Unmistaken P σ ρ e

/-! ## The fold follows the evaluation -/

theorem foldEach_mono {f g : Expr → Option (Option Tree)} (h : ∀ e r, f e = some r → g e = some r)
    {es : List Expr} {r : Option (List Tree)} (hr : foldEach f es = some r) : foldEach g es = some r := by
  induction es generalizing r with
  | nil => exact hr
  | cons e es ih =>
    simp only [foldEach] at hr ⊢
    cases hf : f e with
    | none => simp [hf] at hr
    | some o =>
      rw [hf] at hr
      rw [h e o hf]
      cases o with
      | none => exact hr
      | some t =>
        obtain ⟨r', hr', rfl⟩ := Option.map_eq_some_iff.mp hr
        exact Option.map_eq_some_iff.mpr ⟨r', ih hr', rfl⟩

section Fold

variable {P : Program} {es : List Expr} {depth : Nat} {σ : Scope} {ρ : Env}

theorem foldStep_mono {f g : Nat → Scope → Expr → Option (Option Tree)}
    (hfg : ∀ depth σ e r, f depth σ e = some r → g depth σ e = some r) {e : Expr} {r : Option Tree}
    (h : foldStep P f depth σ e = some r) : foldStep P g depth σ e = some r := by
  have hmap {k : Tree → Tree} {e : Expr} (h : (f depth σ e).map (·.map k) = some r) :
      (g depth σ e).map (·.map k) = some r := by
    obtain ⟨r', hr', rfl⟩ := Option.map_eq_some_iff.mp h
    exact Option.map_eq_some_iff.mpr ⟨r', hfg _ _ _ _ hr', rfl⟩
  have heach {k : List Tree → Tree} {es : List Expr}
      (h : (foldEach (f depth σ) es).map (·.map k) = some r) :
      (foldEach (g depth σ) es).map (·.map k) = some r := by
    obtain ⟨r', hr', rfl⟩ := Option.map_eq_some_iff.mp h
    exact Option.map_eq_some_iff.mpr ⟨r', foldEach_mono (hfg _ _) hr', rfl⟩
  unfold foldStep at h ⊢
  split at h
  · next hd => rw [if_pos hd]; exact h
  · next hd =>
    rw [if_neg hd]
    cases e with
    | paren e => exact hfg _ _ _ _ h
    | arrayLit es => exact h
    | other head => exact h
    | name head full =>
      dsimp only at h ⊢
      cases hf : head.bind σ.find with
      | none => rw [hf] at h; exact h
      | some a => rw [hf] at h; exact hfg _ _ _ _ h
    | call head field callee args =>
      dsimp only at h ⊢
      cases hs : syncArg head field args with
      | some a => rw [hs] at h; exact h
      | none =>
        rw [hs] at h
        cases callee with
        | none => exact h
        | some c =>
          dsimp only at h ⊢
          cases hc : form c args with
          | seq es => rw [hc] at h; exact heach h
          | par es => rw [hc] at h; exact heach h
          | loop e => rw [hc] at h; exact hmap h
          | whenF p e => rw [hc] at h; exact hmap h
          | malformed => rw [hc] at h; exact h
          | combinator =>
            rw [hc] at h
            dsimp only at h ⊢
            cases hi : P.inlined σ c args with
            | none => rw [hi] at h; exact h
            | some q => rw [hi] at h; exact hfg _ _ _ _ h

theorem foldSched_succ {fuel : Nat} {e : Expr} {r : Option Tree}
    (h : foldSched P fuel depth σ e = some r) : foldSched P (fuel + 1) depth σ e = some r := by
  induction fuel generalizing depth σ e r with
  | zero => simp [foldSched] at h
  | succ fuel ih => exact foldStep_mono (fun _ _ _ _ => ih) h

theorem foldSched_mono {n m : Nat} {e : Expr} {r : Option Tree} (hnm : n ≤ m)
    (h : foldSched P n depth σ e = some r) : foldSched P m depth σ e = some r := by
  induction hnm with
  | refl => exact h
  | step _ ih => exact foldSched_succ ih

/-- The fold of `e` ends, and its tree is the schedule of `e`. -/
def Settles (P : Program) (depth : Nat) (σ : Scope) (ρ : Env) (e : Expr) : Prop :=
  ∃ fuel r, foldSched P fuel depth σ e = some r ∧ ∀ t, r = some t → Denotes P ρ e t

theorem settles_of_maxDepth_lt (h : maxDepth < depth) (e : Expr) : Settles P depth σ ρ e :=
  ⟨1, none, if_pos h, fun _ h => by cases h⟩

/-- The children fold in order, each with the fuel of the ones before it. -/
theorem foldEach_settles (es : List Expr) (hes : ∀ pre e post, es = pre ++ e :: post →
      (∀ d ∈ pre, ∃ t, Denotes P ρ d t) → Settles P depth σ ρ e) :
    ∃ fuel r, foldEach (foldSched P fuel depth σ) es = some r ∧
      ∀ ts, r = some ts → DenotesEach P ρ es ts := by
  induction es with
  | nil => exact ⟨0, some [], rfl, fun ts h => by cases h; exact .nil⟩
  | cons e es ih =>
    obtain ⟨n, r, hr, hden⟩ := hes [] e es rfl (by simp)
    cases r with
    | none => exact ⟨n, none, by simp [foldEach, hr], fun _ h => by cases h⟩
    | some t =>
      have ht := hden t rfl
      obtain ⟨m, rs, hrs, hdens⟩ := ih fun pre e' post heq hpre =>
        hes (e :: pre) e' post (by rw [heq]; rfl) (by
          intro d hd
          rcases List.mem_cons.mp hd with rfl | hd
          · exact ⟨t, ht⟩
          · exact hpre d hd)
      have hr' := foldSched_mono (Nat.le_max_left n m) hr
      have hrs' := foldEach_mono (fun _ _ => foldSched_mono (Nat.le_max_right n m)) hrs
      refine ⟨max n m, rs.map (t :: ·), by simp [foldEach, hr', hrs'], ?_⟩
      intro ts hts
      obtain ⟨ts', rfl, rfl⟩ := Option.map_eq_some_iff.mp hts
      exact .cons ht (hdens ts' rfl)

/-- One step of `fold_sched`, read forwards: enough fuel for the recursive call is enough here. -/
theorem foldSched_step {fuel : Nat} {e : Expr} (hd : depth ≤ maxDepth) :
    foldSched P (fuel + 1) depth σ e =
      match e with
      | .paren e => foldSched P fuel depth σ e
      | .name head full =>
        match head.bind σ.find with
        | some a => foldSched P fuel depth σ a
        | none =>
          if P.haltIsCtor ∧ head = some "halt" then some (some .halt) else some (some (.run full))
      | .call head field callee args => foldStep P (foldSched P fuel) depth σ (.call head field callee args)
      | .arrayLit _ => some none
      | .other _ => some none := by
  have hd' : ¬ depth > maxDepth := Nat.not_lt.mpr hd
  cases e <;> simp [foldSched, foldStep, hd']

theorem settles_name {head : Option String} {full : String} (hd : depth ≤ maxDepth)
    (hok : Unmistaken P σ ρ (.name head full))
    (hparam : ∀ x e ρ', head = some x → ρ.find x = some (e, ρ') → Settles P depth σ ρ' e) :
    Settles P depth σ ρ (.name head full) := by
  obtain ⟨hfind, hfull⟩ := hok
  cases hρ : head.bind ρ.find with
  | some q =>
    obtain ⟨e, ρ'⟩ := q
    obtain ⟨x, rfl, hx⟩ := Option.bind_eq_some_iff.mp hρ
    obtain ⟨n, r, hr, hden⟩ := hparam x e ρ' rfl hx
    have hσ : (some x).bind σ.find = some e := by rw [hfind, hρ]; rfl
    obtain rfl : x = full := Option.some.inj (hfull (.inl (by rw [hρ]; rfl)))
    refine ⟨n + 1, r, ?_, fun t ht => .param hx (hden t ht)⟩
    rw [foldSched_step hd]
    dsimp only
    rw [hσ]
    exact hr
  | none =>
    have hσ : head.bind σ.find = none := by rw [hfind, hρ]; rfl
    by_cases hh : P.haltIsCtor ∧ head = some "halt"
    · obtain ⟨hctor, rfl⟩ := hh
      obtain rfl : "halt" = full := Option.some.inj (hfull (.inr ⟨hctor, rfl⟩))
      refine ⟨1, some .halt, ?_, fun t ht => by cases ht; exact .halt hctor hρ⟩
      rw [foldSched_step hd]
      dsimp only
      rw [hσ]
      exact if_pos ⟨hctor, rfl⟩
    · refine ⟨1, some (.run full), ?_, fun t ht => ?_⟩
      · rw [foldSched_step hd]
        dsimp only
        rw [hσ]
        exact if_neg hh
      · cases ht
        exact .system hρ fun h => hh ⟨h.1, h.2.1⟩

/-- A func is inlined only if the call is one of its own. -/
theorem inlined_spec {c : String} {args : List Expr} {fn : Callable} {e : Expr}
    (h : P.inlined σ c args = some (fn, e)) :
    P.findCallableSig c = some fn ∧ fn.isFunc = true ∧ fn.params.length = args.length ∧
      ∃ body, fn.body = some body := by
  simp only [Program.inlined, Option.bind_eq_bind, Option.bind_eq_some_iff] at h
  obtain ⟨fn', hfn, body, hbody, e', he', h⟩ := h
  split at h
  · next hlim =>
    cases h
    exact ⟨hfn, hlim.1, hlim.2.1, body, hbody⟩
  · cases h

theorem settles_call {head field callee : Option String} {args : List Expr} (hd : depth ≤ maxDepth)
    (hok : Unmistaken P σ ρ (.call head field callee args))
    (hchild : ∀ e, Child P ρ (.call head field callee args) e → Settles P depth σ ρ e)
    (hcall : ∀ c fn body e ρ', callee = some c → syncArg head field args = none →
      form c args = .combinator → P.inlined σ c args = some (fn, e) → fn.body = some body →
      Returns (Env.frame ρ fn.params args .nil) body e ρ' →
      Settles P (depth + 1) (Scope.push fn.params args σ) ρ' e) :
    Settles P depth σ ρ (.call head field callee args) := by
  have hd' : ¬ depth > maxDepth := Nat.not_lt.mpr hd
  have hfold {fuel : Nat} : foldSched P (fuel + 1) depth σ (.call head field callee args) =
      foldStep P (foldSched P fuel) depth σ (.call head field callee args) := rfl
  simp only [foldStep, if_neg hd'] at hfold
  dsimp only [Unmistaken] at hok
  cases hs : syncArg head field args with
  | some a =>
    rw [hs] at hok
    obtain ⟨x, hx, hnames⟩ := hok
    refine ⟨1, some (.gpuSync a.head), by rw [hfold, hs], fun t ht => ?_⟩
    cases ht
    rw [hx]
    exact .gpuSync hs hnames
  | none =>
    rw [hs] at hok
    cases callee with
    | none => exact ⟨1, none, by rw [hfold, hs], fun _ h => by cases h⟩
    | some c =>
      have hok := hok c rfl
      simp only [hs] at hfold
      cases hc : form c args with
      | seq es =>
        obtain ⟨n, r, hr, hden⟩ := foldEach_settles es fun pre e post heq hpre =>
          hchild e (.seq hs (heq ▸ hc) hpre)
        refine ⟨n + 1, r.map .seq, by rw [hfold, hc]; simp [hr], fun t ht => ?_⟩
        obtain ⟨ts, rfl, rfl⟩ := Option.map_eq_some_iff.mp ht
        exact .seq hs hc (hden ts rfl)
      | par es =>
        obtain ⟨n, r, hr, hden⟩ := foldEach_settles es fun pre e post heq hpre =>
          hchild e (.par hs (heq ▸ hc) hpre)
        refine ⟨n + 1, r.map .par, by rw [hfold, hc]; simp [hr], fun t ht => ?_⟩
        obtain ⟨ts, rfl, rfl⟩ := Option.map_eq_some_iff.mp ht
        exact .par hs hc (hden ts rfl)
      | loop e =>
        obtain ⟨n, r, hr, hden⟩ := hchild e (.loop hs hc)
        refine ⟨n + 1, r.map .loop, by rw [hfold, hc]; simp [hr], fun t ht => ?_⟩
        obtain ⟨t', rfl, rfl⟩ := Option.map_eq_some_iff.mp ht
        exact .loop hs hc (hden t' rfl)
      | whenF p e =>
        rw [hc] at hok
        obtain ⟨x, hx, hnames⟩ := hok
        obtain ⟨n, r, hr, hden⟩ := hchild e (.whenC hs hc)
        refine ⟨n + 1, r.map (.whenT p.head), by rw [hfold, hc]; simp [hr], fun t ht => ?_⟩
        obtain ⟨t', rfl, rfl⟩ := Option.map_eq_some_iff.mp ht
        rw [hx]
        exact .whenD hs hc hnames (hden t' rfl)
      | malformed => exact ⟨1, none, by rw [hfold, hc], fun _ h => by cases h⟩
      | combinator =>
        rw [hc] at hok
        cases hi : P.inlined σ c args with
        | none => exact ⟨1, none, by rw [hfold, hc, hi], fun _ h => by cases h⟩
        | some q =>
          obtain ⟨fn, e⟩ := q
          obtain ⟨hfn, hfunc, hlen, body, hbody⟩ := inlined_spec hi
          obtain ⟨ρ', hret⟩ := hok fn e body hi hbody
          obtain ⟨n, r, hr, hden⟩ := hcall c fn body e ρ' rfl hs hc hi hbody hret
          exact ⟨n + 1, r, by rw [hfold, hc, hi]; exact hr,
            fun t ht => .combinator hs hc hfn hfunc hlen hbody hret (hden t ht)⟩

/-! ### The order in which the evaluation ends -/

theorem Env.sizeOf_find {x : String} {e : Expr} {ρ' : Env} (h : ρ.find x = some (e, ρ')) :
    sizeOf ρ' < sizeOf ρ := by
  induction ρ with
  | nil => simp [Env.find] at h
  | bind y a written rest _ ih =>
    simp only [Env.find] at h
    split at h
    · cases h
      simp only [bind.sizeOf_spec]
      omega
    · have := ih h
      simp only [bind.sizeOf_spec]
      omega

theorem form_sizeOf {c : String} {args : List Expr} :
    (∀ es, form c args = .seq es → sizeOf es < sizeOf args) ∧
    (∀ es, form c args = .par es → sizeOf es < sizeOf args) ∧
    (∀ e, form c args = .loop e → sizeOf e < sizeOf args) ∧
    (∀ p e, form c args = .whenF p e → sizeOf e < sizeOf args) := by
  unfold form
  split <;> simp <;> omega

theorem sizeOf_lt_append_cons (pre : List Expr) (e : Expr) (post : List Expr) :
    sizeOf e < sizeOf (pre ++ e :: post) :=
  List.sizeOf_lt_of_mem (by simp)

theorem Child.sizeOf_lt {e e' : Expr} (h : Child P ρ e e') : sizeOf e' < sizeOf e := by
  cases h with
  | paren => simp
  | @seq _ _ _ _ pre post _ _ hf _ =>
    have hlit := form_sizeOf.1 _ hf
    have hmem := sizeOf_lt_append_cons pre e' post
    simp only [Expr.call.sizeOf_spec]
    omega
  | @par _ _ _ _ pre post _ _ hf _ =>
    have hlit := form_sizeOf.2.1 _ hf
    have hmem := sizeOf_lt_append_cons pre e' post
    simp only [Expr.call.sizeOf_spec]
    omega
  | loop _ hf =>
    have hlit := form_sizeOf.2.2.1 _ hf
    simp only [Expr.call.sizeOf_spec]
    omega
  | whenC _ hf =>
    have hlit := form_sizeOf.2.2.2 _ _ hf
    simp only [Expr.call.sizeOf_spec]
    omega

/-- A call is one deeper, a parameter is read in an older environment, a child is a smaller
expression. -/
theorem Meets.settles (hfree : CaptureFree P es) {depth : Nat} {σ : Scope} {ρ : Env} {e : Expr}
    (h : Meets P es depth σ ρ e) : Settles P depth σ ρ e := by
  by_cases hd : maxDepth < depth
  · exact settles_of_maxDepth_lt hd e
  have hd := Nat.not_lt.mp hd
  have hok := hfree depth σ ρ e h
  match e, h, hok with
  | .paren e, h, _ =>
    have hc := Child.paren (P := P) (ρ := ρ) e
    obtain ⟨n, r, hr, hden⟩ := Meets.settles hfree (h.child hc)
    exact ⟨n + 1, r, by rw [foldSched_step hd]; exact hr, fun t ht => .paren (hden t ht)⟩
  | .arrayLit es, _, _ => exact ⟨1, none, foldSched_step hd, fun _ h => by cases h⟩
  | .other head, _, _ => exact ⟨1, none, foldSched_step hd, fun _ h => by cases h⟩
  | .name head full, h, hok =>
    refine settles_name hd hok fun x e ρ' hx hfind => ?_
    subst hx
    exact Meets.settles hfree (h.param hfind)
  | .call head field callee args, h, hok =>
    refine settles_call hd hok (fun e hc => Meets.settles hfree (h.child hc)) ?_
    intro c fn body e ρ' hcallee hs hf hi hbody hret
    subst hcallee
    by_cases hlt : depth < maxDepth
    · exact Meets.settles hfree (h.call hs hf hlt hi hbody hret)
    · exact settles_of_maxDepth_lt (by omega) e
termination_by (maxDepth - depth, sizeOf ρ, sizeOf e)
decreasing_by
  · exact .right _ (.right _ hc.sizeOf_lt)
  · exact .right _ (.left _ _ (Env.sizeOf_find hfind))
  · exact .right _ (.right _ hc.sizeOf_lt)
  · exact .left _ _ (by omega)

end Fold

section Run

variable {P : Program} {es : List Expr}

/-- No entry or several of them are an implicit `seq`. -/
theorem tryConstSchedule_of_ne {fuel : Nat} (h : ∀ e, es ≠ [e]) :
    tryConstSchedule P fuel es = (foldEach (foldSched P fuel 0 []) es).map (·.map .seq) := by
  unfold tryConstSchedule
  split
  · next e => exact absurd rfl (h e)
  · rfl

theorem denotesRun_of_ne {ts : List Tree} (h : ∀ e, es ≠ [e]) (hts : DenotesEach P .nil es ts) :
    DenotesRun P es (.seq ts) := by
  unfold DenotesRun
  split
  · next e => exact absurd rfl (h e)
  · exact ⟨ts, hts, rfl⟩

theorem tryConstSchedule_mono {n m : Nat} {r : Option Tree} (hnm : n ≤ m)
    (h : tryConstSchedule P n es = some r) : tryConstSchedule P m es = some r := by
  by_cases hes : ∃ e, es = [e]
  · obtain ⟨e, rfl⟩ := hes
    exact foldSched_mono (P := P) hnm h
  · have hes e (he : es = [e]) : False := hes ⟨e, he⟩
    rw [tryConstSchedule_of_ne hes] at h ⊢
    obtain ⟨ts, hts, rfl⟩ := Option.map_eq_some_iff.mp h
    rw [foldEach_mono (fun _ _ => foldSched_mono hnm) hts]
    rfl

theorem tryConstSchedule_settles (hfree : CaptureFree P es) :
    ∃ fuel r, tryConstSchedule P fuel es = some r ∧ ∀ t, r = some t → DenotesRun P es t := by
  have hentry : ∀ pre e post, es = pre ++ e :: post → (∀ d ∈ pre, ∃ t, Denotes P .nil d t) →
      Settles P 0 [] .nil e :=
    fun pre e post heq hpre => (Meets.entry heq hpre).settles hfree
  by_cases hes : ∃ e, es = [e]
  · obtain ⟨e, rfl⟩ := hes
    exact hentry [] e [] rfl (by simp)
  · have hes e (he : es = [e]) : False := hes ⟨e, he⟩
    obtain ⟨n, r, hr, hden⟩ := foldEach_settles es hentry
    refine ⟨n, r.map .seq, by rw [tryConstSchedule_of_ne hes, hr]; rfl, fun t ht => ?_⟩
    obtain ⟨ts, rfl, rfl⟩ := Option.map_eq_some_iff.mp ht
    exact denotesRun_of_ne hes (hden ts rfl)

end Run

/-- Without a captured name the fold of `#run` ends, and a tree it returns is the schedule its
entries denote. -/
theorem runFolds_of_captureFree (P : Program) (es : List Expr) (hfree : CaptureFree P es) :
    RunFolds P es := by
  obtain ⟨n, r, hr, hden⟩ := tryConstSchedule_settles hfree
  refine ⟨⟨n, r, hr⟩, fun m t ht => hden t ?_⟩
  have hn := tryConstSchedule_mono (Nat.le_max_left n m) hr
  have hm := tryConstSchedule_mono (Nat.le_max_right n m) ht
  exact Option.some.inj (hn.symm.trans hm)

/-! ## The combinators of core -/

/-- `once` and `forever` of core.arche. -/
def coreProgram : Program where
  callables := [
    { name := "once", params := ["s"],
      body := some [.ret (some (.call none none (some "seq")
        [.arrayLit [.name (some "s") "s", .name (some "halt") "halt"]]))] },
    { name := "forever", params := ["s"],
      body := some [.ret (some (.call none none (some "loop") [.name (some "s") "s"]))] }]

/-- `forever(x)`. -/
def foreverOf (x : String) : Expr := .call none none (some "forever") [.name (some x) x]

/-- What the evaluation of `forever(tick)` comes to. -/
inductive TickMeets : Nat → Scope → Env → Expr → Prop
  | run : TickMeets 0 [] .nil (foreverOf "tick")
  | body : TickMeets 1 [("s", .name (some "tick") "tick")]
      (.bind "s" (.name (some "tick") "tick") .nil .nil)
      (.call none none (some "loop") [.name (some "s") "s"])
  | param : TickMeets 1 [("s", .name (some "tick") "tick")]
      (.bind "s" (.name (some "tick") "tick") .nil .nil) (.name (some "s") "s")
  | tick : TickMeets 1 [("s", .name (some "tick") "tick")] .nil (.name (some "tick") "tick")

theorem tickMeets {depth : Nat} {σ : Scope} {ρ : Env} {e : Expr}
    (h : Meets coreProgram [foreverOf "tick"] depth σ ρ e) : TickMeets depth σ ρ e := by
  induction h with
  | @entry pre post e heq _ =>
    obtain ⟨rfl, rfl, rfl⟩ : pre = [] ∧ e = foreverOf "tick" ∧ post = [] := by
      cases pre with
      | nil => simpa [eq_comm] using heq
      | cons _ pre => simp at heq
    exact .run
  | child _ hc ih =>
    cases ih with
    | run => cases hc with
      | seq _ hf | par _ hf | loop _ hf | whenC _ hf => simp [form] at hf
    | body => cases hc with
      | seq _ hf | par _ hf | whenC _ hf => simp [form] at hf
      | loop _ hf =>
        cases hf
        exact .param
    | param | tick => cases hc
  | param _ hfind ih =>
    cases ih with
    | param =>
      cases hfind
      exact .tick
    | tick => cases hfind
  | call _ _ hf _ hi hbody hret ih =>
    cases ih with
    | run =>
      cases hi
      cases hbody
      cases hret
      exact .body
    | body => simp [form] at hf

theorem runFolds_forever_tick :
    CaptureFree coreProgram [foreverOf "tick"] ∧ RunFolds coreProgram [foreverOf "tick"] := by
  have hfree : CaptureFree coreProgram [foreverOf "tick"] := by
    intro depth σ ρ e h
    cases tickMeets h with
    | run =>
      intro c hc
      cases hc
      intro fn e body hi hbody
      cases hi
      cases hbody
      exact ⟨_, .ret _ _ _⟩
    | body =>
      intro c hc
      cases hc
      trivial
    | param => exact ⟨rfl, fun _ => rfl⟩
    | tick => exact ⟨rfl, fun _ => rfl⟩
  exact ⟨hfree, runFolds_of_captureFree coreProgram [foreverOf "tick"] hfree⟩

/-- A parameter bound to its own name is looked up again and again. -/
theorem foldSched_self (P : Program) (fuel depth : Nat) (x full : String) (σ : Scope)
    (hd : depth ≤ maxDepth) :
    foldSched P fuel depth ((x, .name (some x) full) :: σ) (.name (some x) full) = none := by
  induction fuel with
  | zero => rfl
  | succ fuel ih =>
    rw [foldSched_step hd]
    simpa [Scope.find] using ih

/-- `#run forever(s)` with a system `s`. -/
theorem not_runFolds : ¬ RunFolds coreProgram [foreverOf "s"] := by
  rintro ⟨⟨fuel, r, h⟩, -⟩
  -- `forever(s)`, then `loop(s)`, then `s`
  match fuel with
  | 0 => cases h
  | 1 => cases h
  | fuel + 2 =>
    have hself := foldSched_self coreProgram fuel 1 "s" "s" [] (by decide)
    have hrun : tryConstSchedule coreProgram (fuel + 2) [foreverOf "s"] =
        (foldSched coreProgram fuel 1 [("s", .name (some "s") "s")] (.name (some "s") "s")).map
          (·.map .loop) := rfl
    rw [hrun, hself] at h
    cases h

end Arche.Semantic.Schedule
