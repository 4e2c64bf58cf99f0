import Arche.Semantic.ConstText

/-!
# Compile-time evaluation

`semantic_try_const_int` of semantic.c folds literals, constants, arithmetic and calls
of straight-line funcs. It computes in `long` and hands on an `int`, with no regard to
the types of literals, parameters, local binds and results, in which the generated
code computes.

* What the type checker finds out is part of the tree: the type of a literal (its own or
  the one it takes from where it stands), the declared types, and the declaration a name
  resolves to.
* `Evals` is evaluation at run time. The type of an operation is the one codegen takes:
  the wider of the operands' widths and the sign of the first one that has one. Division
  by zero is up to the policy; a quotient that is out of range has no value.

1. `foldsRight_of_fits`: what is folded is the value at run time, if every value the
   exact evaluation comes to is one of its type wherever that matters: as an operand of
   a division or a comparison, and where it is widened.
2. `not_foldsRight`: `(65536 * 65536) / 65536` is folded to `65536`, and is `0` at run time.
-/

namespace Arche.Semantic.ConstEval

open Arche.Lib

/-! ## The tree -/

/-- Types. `bool` is kept in a byte. `other` has no integer values. -/
inductive Ty
  | int (w : Word)
  | bool
  | other
deriving DecidableEq, Repr

/-- The format a value of the type is kept in. -/
def Ty.word : Ty → Option Word
  | int w => some w
  | bool => some ⟨8, true⟩
  | other => none

def i32 : Word := ⟨32, true⟩

/-- The format codegen computes an operation in (`int_width`, `int_signed`). -/
def opWord : Ty → Ty → Option Word
  | .int w, .int v => some ⟨max w.width v.width, w.signed⟩
  | .int w, .bool => some w
  | .bool, .int v => some v
  | .bool, .bool => some i32
  | .other, _ => none
  | _, .other => none

inductive Op
  | add | sub | mul
  | div | mod
  | eq | neq | lt | gt | lte | gte
  | and | or
deriving DecidableEq, Repr

/-- Expressions. `name x r` is the name `x`, which resolves to the declaration `r` if it is no local.
`callee` is the name the front end resolved a call to. -/
inductive Expr
  | lit (text : List Char) (ty : Ty)
  | name (x r : String)
  | paren (e : Expr)
  | neg (e : Expr)
  | bin (op : Op) (a b : Expr)
  | call (callee : Option String) (args : List Expr)
  | other

/-- Statements of a func body. A bind without a type has that of its value. -/
inductive Stmt
  | bind (x : String) (ty : Option Ty) (e : Expr)
  | ret (e : Expr)
  | other

/-- A func or a proc. `ret` is its return type if it has exactly one; an extern has no body. -/
structure Callable where
  name : String
  isFunc : Bool := true
  params : List (String × Ty)
  ret : Option Ty
  body : Option (List Stmt)

/-- A constant with the text it is declared by. -/
structure Const where
  name : String
  lexeme : List Char
  ty : Ty

/-- The declarations, and what the policy in force makes of a division by zero. -/
structure Program where
  callables : List Callable
  consts : List Const
  onZero : Op → Word → Int → Option Int

/-- `find_callable_sig`. -/
def Program.findCallableSig (P : Program) (name : String) : Option Callable :=
  P.callables.find? (·.name == name)

def Program.findConst (P : Program) (name : String) : Option Const :=
  P.consts.find? (·.name == name)

/-- The func a call of `n` arguments folds: its parameters, return type and body. -/
def Program.foldable (P : Program) (callee : String) (n : Nat) :
    Option (List (String × Ty) × Ty × List Stmt) := do
  let fn ← P.findCallableSig callee
  let ret ← fn.ret
  let body ← fn.body
  if fn.isFunc ∧ fn.params.length = n then some (fn.params, ret, body) else none

/-! ## `ctfe_eval` -/

/-- The integer operations of `+`, `-` and `*`. -/
def Op.ring (x y : Int) : Op → Option Int
  | add => some (x + y)
  | sub => some (x - y)
  | mul => some (x * y)
  | _ => none

/-- The integer operations of `/` and `%`, rounded to zero. -/
def Op.quot (x y : Int) : Op → Option Int
  | div => some (x.tdiv y)
  | mod => some (x.tmod y)
  | _ => none

def Op.cmp (x y : Int) : Op → Option Bool
  | eq => some (x = y)
  | neq => some (x ≠ y)
  | lt => some (x < y)
  | gt => some (x > y)
  | lte => some (x ≤ y)
  | gte => some (x ≥ y)
  | _ => none

def truth (b : Bool) : Int := if b then 1 else 0

/-- The binary operations of `ctfe_eval`, in `long`. -/
def ctfeBin (op : Op) (l r : Int) : Option Int :=
  match op.ring l r with
  | some v => some (long.wrap v)
  | none =>
    match op.quot l r with
    | some v => if r = 0 then none else some (long.wrap v)
    | none => (op.cmp l r).map truth

/-- `CtfeScope.vars`, the newest first. -/
abbrev Scope := List (String × Int)

/-- `semantic_get_const_value`, and the text read by `strtol`. -/
def Program.constValue (P : Program) (x : String) : Option Int :=
  (P.findConst x).bind fun c => strtol (registered c.lexeme)

section Ctfe

variable (P : Program) (call : String → List Int → Option Int)

mutual

/-- `ctfe_eval`; `call` is `ctfe_eval_call` after its arguments. -/
def ctfeEval (σ : Scope) : Expr → Option Int
  | .lit text _ => if '.' ∈ text then none else archeIntLit text
  | .name x _ =>
    match σ.lookup x with
    | some v => some v
    | none => P.constValue x
  | .paren e => ctfeEval σ e
  | .neg e => (ctfeEval σ e).map fun v => long.wrap (-v)
  | .bin op a b => (ctfeEval σ a).bind fun l => (ctfeEval σ b).bind fun r => ctfeBin op l r
  | .call none _ => none
  | .call (some c) args => (ctfeArgs σ args).bind (call c)
  | .other => none

def ctfeArgs (σ : Scope) : List Expr → Option (List Int)
  | [] => some []
  | e :: es => (ctfeEval σ e).bind fun v => (ctfeArgs σ es).map (v :: ·)

end

/-- The walk over the body, with room for `left` more binds. -/
def ctfeBody : Nat → Scope → List Stmt → Option Int
  | left + 1, σ, .bind x _ e :: rest => (ctfeEval P call σ e).bind fun v => ctfeBody left ((x, v) :: σ) rest
  | _, σ, .ret e :: _ => ctfeEval P call σ e
  | _, _, _ => none

end Ctfe

/-- `ctfe_eval_call`, up to the given depth of calls. -/
def ctfeCall (P : Program) : Nat → String → List Int → Option Int
  | 0, _, _ => none
  | depth + 1, callee, args =>
    (P.foldable callee args.length).bind fun (params, _, body) =>
      ctfeBody P (ctfeCall P depth) 16 ((params.map Prod.fst).zip args).reverse body

/-- `CTFE_MAX_DEPTH`. -/
def maxDepth : Nat := 64

/-- `semantic_try_const_int`. -/
def tryConstInt (P : Program) (e : Expr) : Option Int :=
  (ctfeEval P (ctfeCall P maxDepth) [] e).map i32.wrap

/-! ## Evaluation at run time -/

/-- Locals with their types, the newest first. -/
abbrev Env := List (String × Ty × Int)

/-- The type of a bind. -/
def bindTy (declared : Option Ty) (ty : Ty) : Ty := declared.getD ty

mutual

/-- `Evals P ρ e ty r`: at run time `e` is `r`, a value of type `ty`. -/
inductive Evals (P : Program) : Env → Expr → Ty → Int → Prop
  | lit {ρ : Env} {text : List Char} {ty : Ty} {w : Word} {n : Int} :
      archeIntLit text = some n → ty.word = some w → Evals P ρ (.lit text ty) ty (w.wrap n)
  | loc {ρ : Env} {x r : String} {ty : Ty} {v : Int} :
      ρ.lookup x = some (ty, v) → Evals P ρ (.name x r) ty v
  | const {ρ : Env} {x r : String} {c : Const} {w : Word} {n : Int} :
      ρ.lookup x = none → P.findConst r = some c → archeIntLit c.lexeme = some n → c.ty.word = some w →
      Evals P ρ (.name x r) c.ty (w.wrap n)
  | paren {ρ : Env} {e : Expr} {ty : Ty} {v : Int} : Evals P ρ e ty v → Evals P ρ (.paren e) ty v
  | neg {ρ : Env} {e : Expr} {ty : Ty} {w : Word} {v : Int} :
      Evals P ρ e ty v → ty.word = some w → Evals P ρ (.neg e) ty (w.wrap (-v))
  | ring {ρ : Env} {op : Op} {a b : Expr} {s t : Ty} {w : Word} {x y z : Int} :
      Evals P ρ a s x → Evals P ρ b t y → opWord s t = some w →
      op.ring (w.wrap x) (w.wrap y) = some z → Evals P ρ (.bin op a b) (.int w) (w.wrap z)
  | quot {ρ : Env} {op : Op} {a b : Expr} {s t : Ty} {w : Word} {x y z : Int} :
      Evals P ρ a s x → Evals P ρ b t y → opWord s t = some w → w.wrap y ≠ 0 →
      w.Holds ((w.wrap x).tdiv (w.wrap y)) → op.quot (w.wrap x) (w.wrap y) = some z →
      Evals P ρ (.bin op a b) (.int w) z
  | quotZero {ρ : Env} {op : Op} {a b : Expr} {s t : Ty} {w : Word} {x y z z' : Int} :
      Evals P ρ a s x → Evals P ρ b t y → opWord s t = some w → w.wrap y = 0 →
      op.quot (w.wrap x) (w.wrap y) = some z' → P.onZero op w (w.wrap x) = some z →
      Evals P ρ (.bin op a b) (.int w) z
  | cmp {ρ : Env} {op : Op} {a b : Expr} {s t : Ty} {w : Word} {x y : Int} {q : Bool} :
      Evals P ρ a s x → Evals P ρ b t y → opWord s t = some w →
      op.cmp (w.wrap x) (w.wrap y) = some q → Evals P ρ (.bin op a b) (.int i32) (truth q)
  | call {ρ ρ' : Env} {c : String} {args : List Expr} {params : List (String × Ty)} {ret : Ty}
      {body : List Stmt} {v : Int} :
      P.foldable c args.length = some (params, ret, body) → EvalsArgs P ρ args params ρ' →
      RunsBody P ρ'.reverse body ret v → Evals P ρ (.call (some c) args) ret v

/-- The arguments, each as a value of its parameter's type. -/
inductive EvalsArgs (P : Program) : Env → List Expr → List (String × Ty) → Env → Prop
  | nil {ρ : Env} : EvalsArgs P ρ [] [] []
  | cons {ρ ρ' : Env} {e : Expr} {es : List Expr} {x : String} {ty ty' : Ty} {w : Word}
      {params : List (String × Ty)} {v : Int} :
      Evals P ρ e ty' v → ty.word = some w → EvalsArgs P ρ es params ρ' →
      EvalsArgs P ρ (e :: es) ((x, ty) :: params) ((x, ty, w.wrap v) :: ρ')

/-- A straight-line body, with what it returns as a value of the return type. -/
inductive RunsBody (P : Program) : Env → List Stmt → Ty → Int → Prop
  | bind {ρ : Env} {x : String} {declared : Option Ty} {ty ret : Ty} {w : Word} {e : Expr}
      {rest : List Stmt} {v r : Int} :
      Evals P ρ e ty v → (bindTy declared ty).word = some w →
      RunsBody P ((x, bindTy declared ty, w.wrap v) :: ρ) rest ret r →
      RunsBody P ρ (.bind x declared e :: rest) ret r
  | ret {ρ : Env} {e : Expr} {ty ret : Ty} {w : Word} {rest : List Stmt} {v : Int} :
      Evals P ρ e ty v → ret.word = some w → RunsBody P ρ (.ret e :: rest) ret (w.wrap v)

end

/-- What is folded is the value at run time. -/
def FoldsRight (P : Program) (e : Expr) : Prop :=
  ∀ v, tryConstInt P e = some v → ∃ ty, Evals P [] e ty v

/-! ## Exact evaluation -/

/-- A value `x` of type `ty` is the same in the format `w`, or it is one that `ty` holds. -/
def Widens (ty : Ty) (w : Word) (x : Int) : Prop :=
  ∃ v, ty.word = some v ∧ (w.width ≤ v.width ∨ v.Holds x)

mutual

/-- `Fits P ρ e ty z`: with unbounded integers `e` is `z`, of type `ty`, and on the way there every
operand of a division or a comparison is a value of the format it is computed in, every value that is
widened is one of its type, no operation leaves `long`, and constants are named as they resolve. -/
inductive Fits (P : Program) : Env → Expr → Ty → Int → Prop
  | lit {ρ : Env} {text : List Char} {ty : Ty} {w : Word} {n : Int} :
      archeIntLit text = some n → ty.word = some w → Fits P ρ (.lit text ty) ty n
  | loc {ρ : Env} {x r : String} {ty : Ty} {z : Int} :
      ρ.lookup x = some (ty, z) → Fits P ρ (.name x r) ty z
  | const {ρ : Env} {x r : String} {c : Const} {w : Word} {n : Int} :
      ρ.lookup x = none → P.findConst x = P.findConst r → P.findConst r = some c →
      archeIntLit c.lexeme = some n → c.ty.word = some w → Fits P ρ (.name x r) c.ty n
  | paren {ρ : Env} {e : Expr} {ty : Ty} {z : Int} : Fits P ρ e ty z → Fits P ρ (.paren e) ty z
  | neg {ρ : Env} {e : Expr} {ty : Ty} {w : Word} {z : Int} :
      Fits P ρ e ty z → ty.word = some w → long.Holds (-z) → Fits P ρ (.neg e) ty (-z)
  | ring {ρ : Env} {op : Op} {a b : Expr} {s t : Ty} {w : Word} {x y z : Int} :
      Fits P ρ a s x → Fits P ρ b t y → opWord s t = some w → Widens s w x → Widens t w y →
      op.ring x y = some z → long.Holds z → Fits P ρ (.bin op a b) (.int w) z
  | quot {ρ : Env} {op : Op} {a b : Expr} {s t : Ty} {w : Word} {x y z : Int} :
      Fits P ρ a s x → Fits P ρ b t y → opWord s t = some w → Widens s w x → Widens t w y →
      w.Holds x → w.Holds y → y ≠ 0 → w.Holds (x.tdiv y) → op.quot x y = some z → long.Holds z →
      Fits P ρ (.bin op a b) (.int w) z
  | cmp {ρ : Env} {op : Op} {a b : Expr} {s t : Ty} {w : Word} {x y : Int} {q : Bool} :
      Fits P ρ a s x → Fits P ρ b t y → opWord s t = some w → Widens s w x → Widens t w y →
      w.Holds x → w.Holds y → op.cmp x y = some q → Fits P ρ (.bin op a b) (.int i32) (truth q)
  | call {ρ ρ' : Env} {c : String} {args : List Expr} {params : List (String × Ty)} {ret : Ty}
      {body : List Stmt} {z : Int} :
      P.foldable c args.length = some (params, ret, body) → FitsArgs P ρ args params ρ' →
      FitsBody P ρ'.reverse body ret z → Fits P ρ (.call (some c) args) ret z

inductive FitsArgs (P : Program) : Env → List Expr → List (String × Ty) → Env → Prop
  | nil {ρ : Env} : FitsArgs P ρ [] [] []
  | cons {ρ ρ' : Env} {e : Expr} {es : List Expr} {x : String} {ty ty' : Ty} {w : Word}
      {params : List (String × Ty)} {z : Int} :
      Fits P ρ e ty' z → ty.word = some w → Widens ty' w z → FitsArgs P ρ es params ρ' →
      FitsArgs P ρ (e :: es) ((x, ty) :: params) ((x, ty, z) :: ρ')

inductive FitsBody (P : Program) : Env → List Stmt → Ty → Int → Prop
  | bind {ρ : Env} {x : String} {declared : Option Ty} {ty ret : Ty} {w : Word} {e : Expr}
      {rest : List Stmt} {v z : Int} :
      Fits P ρ e ty v → (bindTy declared ty).word = some w → Widens ty w v →
      FitsBody P ((x, bindTy declared ty, v) :: ρ) rest ret z →
      FitsBody P ρ (.bind x declared e :: rest) ret z
  | ret {ρ : Env} {e : Expr} {ty ret : Ty} {w : Word} {rest : List Stmt} {z : Int} :
      Fits P ρ e ty z → ret.word = some w → Widens ty w z → FitsBody P ρ (.ret e :: rest) ret z

end

/-! ## The exact value is what is folded -/

/-- The locals as `ctfe_eval` keeps them. -/
def Env.scope (ρ : Env) : Scope := ρ.map fun (x, _, z) => (x, z)

theorem Env.lookup_scope (ρ : Env) (x : String) : ρ.scope.lookup x = (ρ.lookup x).map Prod.snd := by
  induction ρ with
  | nil => rfl
  | cons q ρ ih =>
    obtain ⟨y, ty, z⟩ := q
    simp only [Env.scope, List.map_cons, List.lookup_cons] at ih ⊢
    cases x == y with
    | true => rfl
    | false => exact ih

theorem Env.scope_reverse (ρ : Env) : Env.scope ρ.reverse = ρ.scope.reverse := by
  simp [Env.scope]

theorem constValue_eq {P : Program} {x : String} {c : Const} {n v : Int} (hc : P.findConst x = some c)
    (hn : archeIntLit c.lexeme = some n) (hv : P.constValue x = some v) : v = n := by
  rw [Program.constValue, hc] at hv
  exact Option.some.inj ((strtol_registered hv).symm.trans hn)

theorem ctfeBin_ring {op : Op} {x y z v : Int} (hz : op.ring x y = some z) (hlong : long.Holds z)
    (hv : ctfeBin op x y = some v) : v = z := by
  rw [ctfeBin, hz] at hv
  exact (Option.some.inj hv).symm.trans hlong

theorem ctfeBin_quot {op : Op} {x y z v : Int} (hz : op.quot x y = some z) (hy : y ≠ 0)
    (hlong : long.Holds z) (hv : ctfeBin op x y = some v) : v = z := by
  have hring : op.ring x y = none := by
    cases op <;> simp [Op.quot] at hz <;> rfl
  rw [ctfeBin, hring, hz] at hv
  simp only [if_neg hy] at hv
  exact (Option.some.inj hv).symm.trans hlong

theorem ctfeBin_cmp {op : Op} {x y v : Int} {q : Bool} (hq : op.cmp x y = some q)
    (hv : ctfeBin op x y = some v) : v = truth q := by
  have hring : op.ring x y = none := by
    cases op <;> simp [Op.cmp] at hq <;> rfl
  have hquot : op.quot x y = none := by
    cases op <;> simp [Op.cmp] at hq <;> rfl
  rw [ctfeBin, hring, hquot, hq] at hv
  exact (Option.some.inj hv).symm

theorem ctfeEval_bin {P : Program} {call : String → List Int → Option Int} {σ : Scope} {op : Op}
    {a b : Expr} {v : Int} (h : ctfeEval P call σ (.bin op a b) = some v) :
    ∃ l r, ctfeEval P call σ a = some l ∧ ctfeEval P call σ b = some r ∧ ctfeBin op l r = some v := by
  simp only [ctfeEval, Option.bind_eq_some_iff] at h
  obtain ⟨l, hl, r, hr, h⟩ := h
  exact ⟨l, r, hl, hr, h⟩

theorem ctfeArgs_length {P : Program} {call : String → List Int → Option Int} {σ : Scope}
    {args : List Expr} {vs : List Int} (h : ctfeArgs P call σ args = some vs) :
    vs.length = args.length := by
  induction args generalizing vs with
  | nil =>
    simp only [ctfeArgs, Option.some.injEq] at h
    simp [← h]
  | cons e es ih =>
    simp only [ctfeArgs, Option.bind_eq_some_iff, Option.map_eq_some_iff] at h
    obtain ⟨v, -, vs', hvs', rfl⟩ := h
    simp [ih hvs']

mutual

theorem Fits.ctfeEval_eq {P : Program} {depth : Nat} {ρ : Env} {e : Expr} {ty : Ty} {z v : Int} :
    Fits P ρ e ty z → ctfeEval P (ctfeCall P depth) ρ.scope e = some v → v = z
  | .lit hn _, hv => by
    simp only [ctfeEval] at hv
    split at hv
    · cases hv
    · exact Option.some.inj (hv.symm.trans hn)
  | .loc hx, hv => by
    simp only [ctfeEval, Env.lookup_scope, hx, Option.map_some] at hv
    exact (Option.some.inj hv).symm
  | .const hx hsame hc hn _, hv => by
    simp only [ctfeEval, Env.lookup_scope, hx, Option.map_none] at hv
    exact constValue_eq (hsame.trans hc) hn hv
  | .paren h, hv => by
    simp only [ctfeEval] at hv
    exact h.ctfeEval_eq hv
  | .neg h _ hlong, hv => by
    simp only [ctfeEval] at hv
    obtain ⟨u, hu, rfl⟩ := Option.map_eq_some_iff.mp hv
    rw [h.ctfeEval_eq hu]
    exact hlong
  | .ring ha hb _ _ _ hz hlong, hv => by
    obtain ⟨l, r, hl, hr, hv⟩ := ctfeEval_bin hv
    rw [ha.ctfeEval_eq hl, hb.ctfeEval_eq hr] at hv
    exact ctfeBin_ring hz hlong hv
  | .quot ha hb _ _ _ _ _ hy _ hz hlong, hv => by
    obtain ⟨l, r, hl, hr, hv⟩ := ctfeEval_bin hv
    rw [ha.ctfeEval_eq hl, hb.ctfeEval_eq hr] at hv
    exact ctfeBin_quot hz hy hlong hv
  | .cmp ha hb _ _ _ _ _ hq, hv => by
    obtain ⟨l, r, hl, hr, hv⟩ := ctfeEval_bin hv
    rw [ha.ctfeEval_eq hl, hb.ctfeEval_eq hr] at hv
    exact ctfeBin_cmp hq hv
  | .call hfn hargs hbody, hv => by
    simp only [ctfeEval, Option.bind_eq_some_iff] at hv
    obtain ⟨vs, hvs, hv⟩ := hv
    have hlen := ctfeArgs_length hvs
    have hzip := hargs.ctfeArgs_eq hvs
    cases depth with
    | zero => cases hv
    | succ depth =>
      simp only [ctfeCall, hlen, hfn, Option.bind_some, ← hzip] at hv
      rw [← Env.scope_reverse] at hv
      exact hbody.ctfeBody_eq hv

theorem FitsArgs.ctfeArgs_eq {P : Program} {depth : Nat} {ρ ρ' : Env} {args : List Expr}
    {params : List (String × Ty)} {vs : List Int} :
    FitsArgs P ρ args params ρ' → ctfeArgs P (ctfeCall P depth) ρ.scope args = some vs →
    ρ'.scope = (params.map Prod.fst).zip vs
  | .nil, _ => rfl
  | .cons h _ _ hes, hvs => by
    simp only [ctfeArgs, Option.bind_eq_some_iff, Option.map_eq_some_iff] at hvs
    obtain ⟨v, hv, vs, hvs, rfl⟩ := hvs
    have hz := h.ctfeEval_eq hv
    have hrest := hes.ctfeArgs_eq hvs
    simp only [Env.scope] at hrest
    simp [Env.scope, hrest, hz]

theorem FitsBody.ctfeBody_eq {P : Program} {depth : Nat} {ρ : Env} {body : List Stmt} {ret : Ty}
    {z v : Int} {left : Nat} :
    FitsBody P ρ body ret z → ctfeBody P (ctfeCall P depth) left ρ.scope body = some v → v = z
  | .bind h _ _ hrest, hv => by
    cases left with
    | zero => cases hv
    | succ left =>
      simp only [ctfeBody, Option.bind_eq_some_iff] at hv
      obtain ⟨u, hu, hv⟩ := hv
      rw [h.ctfeEval_eq hu] at hv
      exact hrest.ctfeBody_eq hv
  | .ret h _ _, hv => by
    simp only [ctfeBody] at hv
    exact h.ctfeEval_eq hv

end

/-! ## The value at run time is the exact one in its format -/

/-- A value in the format of its type. -/
def Ty.wrap (ty : Ty) (z : Int) : Int :=
  match ty.word with
  | some w => w.wrap z
  | none => z

theorem Ty.wrap_of_word {ty : Ty} {w : Word} (h : ty.word = some w) (z : Int) : ty.wrap z = w.wrap z := by
  simp only [Ty.wrap, h]

/-- The locals at run time. -/
def Env.held (ρ : Env) : Env := ρ.map fun (x, ty, z) => (x, ty, ty.wrap z)

theorem Env.lookup_held (ρ : Env) (x : String) :
    ρ.held.lookup x = (ρ.lookup x).map fun (ty, z) => (ty, ty.wrap z) := by
  induction ρ with
  | nil => rfl
  | cons q ρ ih =>
    obtain ⟨y, ty, z⟩ := q
    simp only [Env.held, List.map_cons, List.lookup_cons] at ih ⊢
    cases x == y with
    | true => rfl
    | false => exact ih

theorem Env.held_reverse (ρ : Env) : Env.held ρ.reverse = ρ.held.reverse := by
  simp [Env.held]

/-- A conversion forgets nothing the wider format kept, and widens a value to itself. -/
theorem Widens.wrap {ty : Ty} {w : Word} {x : Int} (h : Widens ty w x) : w.wrap (ty.wrap x) = w.wrap x := by
  obtain ⟨v, hv, hle | hholds⟩ := h
  · rw [Ty.wrap_of_word hv]
    exact Word.wrap_wrap_of_le hle x
  · rw [Ty.wrap_of_word hv, hholds]

theorem ring_wrap {op : Op} {w : Word} {x y z : Int} (h : op.ring x y = some z) :
    ∃ z', op.ring (w.wrap x) (w.wrap y) = some z' ∧ w.wrap z' = w.wrap z := by
  cases op with
  | add =>
    cases h
    exact ⟨_, rfl, w.wrap_add x y⟩
  | sub =>
    cases h
    exact ⟨_, rfl, w.wrap_sub x y⟩
  | mul =>
    cases h
    exact ⟨_, rfl, w.wrap_mul x y⟩
  | _ => cases h

/-- A remainder of values is between the first of them and zero. -/
theorem quot_holds {op : Op} {w : Word} {x y z : Int} (hx : w.Holds x) (hq : w.Holds (x.tdiv y))
    (hz : op.quot x y = some z) : w.Holds z := by
  cases op with
  | div =>
    cases hz
    exact hq
  | mod =>
    cases hz
    refine hx.between ?_
    have habs := Int.natAbs_tmod x y
    have hle := Nat.mod_le x.natAbs y.natAbs
    rcases Int.le_total 0 x with hpos | hneg
    · have hnonneg := Int.tmod_nonneg y hpos
      omega
    · have hnonneg := Int.tmod_nonneg (a := -x) y (by omega)
      rw [Int.neg_tmod] at hnonneg
      omega
  | _ => cases hz

theorem wrap_truth (q : Bool) : (Ty.int i32).wrap (truth q) = truth q := by
  cases q <;> decide

mutual

theorem Fits.evals {P : Program} {ρ : Env} {e : Expr} {ty : Ty} {z : Int} :
    Fits P ρ e ty z → Evals P ρ.held e ty (ty.wrap z)
  | .lit hn hw => by
    rw [Ty.wrap_of_word hw]
    exact .lit hn hw
  | .loc hx => by
    refine .loc ?_
    rw [Env.lookup_held, hx]
    rfl
  | .const hx _ hc hn hw => by
    rw [Ty.wrap_of_word hw]
    refine .const ?_ hc hn hw
    rw [Env.lookup_held, hx]
    rfl
  | .paren h => .paren h.evals
  | .neg (w := w) (z := z) h hw _ => by
    have heval := Evals.neg h.evals hw
    rw [Ty.wrap_of_word hw] at heval ⊢
    rwa [w.wrap_neg] at heval
  | .ring ha hb hop hx hy hz _ => by
    obtain ⟨z', hz', hwrap⟩ := ring_wrap hz
    rw [← hx.wrap, ← hy.wrap] at hz'
    have heval := Evals.ring ha.evals hb.evals hop hz'
    rw [hwrap] at heval
    exact heval
  | .quot ha hb hop hx hy hxw hyw hne hq hz _ => by
    have hx' := hx.wrap.trans hxw
    have hy' := hy.wrap.trans hyw
    have heval := Evals.quot ha.evals hb.evals hop (by rw [hy']; exact hne) (by rw [hx', hy']; exact hq)
      (by rw [hx', hy']; exact hz)
    rw [Ty.wrap_of_word rfl, quot_holds hxw hq hz]
    exact heval
  | .cmp ha hb hop hx hy hxw hyw hq => by
    have hx' := hx.wrap.trans hxw
    have hy' := hy.wrap.trans hyw
    rw [wrap_truth]
    exact Evals.cmp ha.evals hb.evals hop (by rw [hx', hy']; exact hq)
  | .call hfn hargs hbody => by
    have heval := hbody.runsBody
    rw [Env.held_reverse] at heval
    exact .call hfn hargs.evalsArgs heval

theorem FitsArgs.evalsArgs {P : Program} {ρ ρ' : Env} {args : List Expr} {params : List (String × Ty)} :
    FitsArgs P ρ args params ρ' → EvalsArgs P ρ.held args params ρ'.held
  | .nil => .nil
  | .cons (x := x) h hw hwide hes => by
    have harg := EvalsArgs.cons (x := x) h.evals hw hes.evalsArgs
    rw [hwide.wrap, ← Ty.wrap_of_word hw] at harg
    exact harg

theorem FitsBody.runsBody {P : Program} {ρ : Env} {body : List Stmt} {ret : Ty} {z : Int} :
    FitsBody P ρ body ret z → RunsBody P ρ.held body ret (ret.wrap z)
  | .bind h hw hwide hrest => by
    refine .bind h.evals hw ?_
    rw [hwide.wrap, ← Ty.wrap_of_word hw]
    exact hrest.runsBody
  | .ret h hw hwide => by
    rw [Ty.wrap_of_word hw, ← hwide.wrap]
    exact .ret h.evals hw

end

/-! ## What is folded -/

/-- What is folded is the value at run time, if the exact evaluation fits and its value is the same as
an `int` and in its own type. -/
theorem foldsRight_of_fits (P : Program) (e : Expr) (ty : Ty) (z : Int) (hfits : Fits P [] e ty z)
    (hint : i32.wrap z = ty.wrap z) : FoldsRight P e := by
  intro v hv
  obtain ⟨u, hu, rfl⟩ := Option.map_eq_some_iff.mp hv
  refine ⟨ty, ?_⟩
  rw [hfits.ctfeEval_eq hu, hint]
  exact hfits.evals

/-- A program with the func `area :: func(w: int, h: int) -> int` that returns the product. -/
def areaProgram : Program where
  callables := [
    { name := "area", params := [("w", .int i32), ("h", .int i32)], ret := some (.int i32),
      body := some [.ret (.bin .mul (.name "w" "w") (.name "h" "h"))] }]
  consts := [⟨"N", ['0', 'x', '4'], .int i32⟩]
  onZero := fun _ _ _ => some 0

def intLit (text : List Char) : Expr := .lit text (.int i32)

/-- `area(3, N)` with `N :: 0x4`. -/
def areaCall : Expr := .call (some "area") [intLit ['3'], .name "N" "N"]

theorem foldsRight_area :
    tryConstInt areaProgram areaCall = some 12 ∧ FoldsRight areaProgram areaCall := by
  refine ⟨by decide, foldsRight_of_fits areaProgram areaCall (.int i32) 12 ?_ rfl⟩
  have hwide (x : Int) : Widens (.int i32) i32 x := ⟨i32, rfl, .inl (Nat.le_refl _)⟩
  have hN : Fits areaProgram [] (.name "N" "N") (.int i32) 4 :=
    .const (c := ⟨"N", ['0', 'x', '4'], .int i32⟩) rfl rfl rfl rfl rfl
  have hargs : FitsArgs areaProgram [] [intLit ['3'], .name "N" "N"] [("w", .int i32), ("h", .int i32)]
      [("w", .int i32, 3), ("h", .int i32, 4)] :=
    .cons (.lit rfl rfl) rfl (hwide 3) (.cons hN rfl (hwide 4) .nil)
  refine .call rfl hargs (.ret ?_ rfl (hwide 12))
  exact .ring (.loc rfl) (.loc rfl) rfl (hwide _) (hwide _) rfl rfl

/-- `(65536 * 65536) / 65536`. -/
def overflowing : Expr :=
  .bin .div (.paren (.bin .mul (intLit ['6', '5', '5', '3', '6']) (intLit ['6', '5', '5', '3', '6'])))
    (intLit ['6', '5', '5', '3', '6'])

theorem evals_intLit {P : Program} {ρ : Env} {text : List Char} {ty : Ty} {n v : Int}
    (hn : archeIntLit text = some n) (h : Evals P ρ (intLit text) ty v) :
    ty = .int i32 ∧ v = i32.wrap n := by
  cases h with
  | lit hn' hw =>
    cases hw
    exact ⟨rfl, by rw [Option.some.inj (hn'.symm.trans hn)]⟩

/-- The product is taken in 64 bits at compile time and in 32 at run time. -/
theorem not_foldsRight : tryConstInt areaProgram overflowing = some 65536 ∧
    ¬ FoldsRight areaProgram overflowing := by
  have hfold : tryConstInt areaProgram overflowing = some 65536 := by decide
  refine ⟨hfold, fun h => ?_⟩
  obtain ⟨ty, heval⟩ := h 65536 hfold
  have hlit {ρ : Env} {ty : Ty} {v : Int}
      (h : Evals areaProgram ρ (intLit ['6', '5', '5', '3', '6']) ty v) : ty = .int i32 ∧ v = 65536 :=
    evals_intLit (n := 65536) (by decide) h
  have hprod {ty : Ty} {v : Int} (h : Evals areaProgram [] (.paren (.bin .mul
      (intLit ['6', '5', '5', '3', '6']) (intLit ['6', '5', '5', '3', '6']))) ty v) :
      ty = .int i32 ∧ v = 0 := by
    cases h with
    | paren h =>
      cases h with
      | ring ha hb hop hz =>
        obtain ⟨rfl, rfl⟩ := hlit ha
        obtain ⟨rfl, rfl⟩ := hlit hb
        cases hop
        cases hz
        exact ⟨rfl, by decide⟩
      | quot _ _ _ _ _ hz => cases hz
      | quotZero _ _ _ _ hz => cases hz
      | cmp _ _ _ hq => cases hq
  generalize hv : (65536 : Int) = v at heval
  cases heval with
  | ring _ _ _ hz => cases hz
  | cmp _ _ _ hq => cases hq
  | quot ha hb hop _ _ hz =>
    obtain ⟨rfl, rfl⟩ := hprod ha
    obtain ⟨rfl, rfl⟩ := hlit hb
    cases hop
    subst hv
    exact absurd hz (by decide)
  | quotZero ha hb hop hzero =>
    obtain ⟨rfl, rfl⟩ := hprod ha
    obtain ⟨rfl, rfl⟩ := hlit hb
    cases hop
    exact absurd hzero (by decide)

/-! ## Folding with more declarations -/

/-- Every declaration of `P` is found in `Q`. -/
structure Program.Within (P Q : Program) : Prop where
  callables : ∀ c fn, P.findCallableSig c = some fn → Q.findCallableSig c = some fn
  consts : ∀ x v, P.constValue x = some v → Q.constValue x = some v

section Within

variable {P Q : Program} {call call' : String → List Int → Option Int}

mutual

theorem ctfeEval_mono (hw : P.Within Q) (hcall : ∀ c vs v, call c vs = some v → call' c vs = some v)
    (σ : Scope) {v : Int} :
    ∀ e : Expr, ctfeEval P call σ e = some v → ctfeEval Q call' σ e = some v
  | .lit _ _, h => by
    rw [ctfeEval] at h ⊢
    exact h
  | .name x _, h => by
    rw [ctfeEval] at h ⊢
    cases hx : σ.lookup x with
    | some w =>
      rw [hx] at h
      exact h
    | none =>
      rw [hx] at h
      exact hw.consts x v h
  | .paren e, h => by
    rw [ctfeEval] at h ⊢
    exact ctfeEval_mono hw hcall σ e h
  | .neg e, h => by
    rw [ctfeEval, Option.map_eq_some_iff] at h ⊢
    obtain ⟨u, hu, rfl⟩ := h
    exact ⟨u, ctfeEval_mono hw hcall σ e hu, rfl⟩
  | .bin op a b, h => by
    obtain ⟨l, r, hl, hr, h⟩ := ctfeEval_bin h
    rw [ctfeEval, ctfeEval_mono hw hcall σ a hl, Option.bind_some, ctfeEval_mono hw hcall σ b hr]
    exact h
  | .call none _, h => by
    rw [ctfeEval] at h
    cases h
  | .call (some c) args, h => by
    rw [ctfeEval, Option.bind_eq_some_iff] at h ⊢
    obtain ⟨vs, hvs, h⟩ := h
    exact ⟨vs, ctfeArgs_mono hw hcall σ args hvs, hcall c vs v h⟩
  | .other, h => by
    rw [ctfeEval] at h
    cases h

theorem ctfeArgs_mono (hw : P.Within Q) (hcall : ∀ c vs v, call c vs = some v → call' c vs = some v)
    (σ : Scope) {vs : List Int} :
    ∀ es : List Expr, ctfeArgs P call σ es = some vs → ctfeArgs Q call' σ es = some vs
  | [], h => by
    rw [ctfeArgs] at h ⊢
    exact h
  | e :: es, h => by
    rw [ctfeArgs, Option.bind_eq_some_iff] at h ⊢
    obtain ⟨v, hv, h⟩ := h
    obtain ⟨ws, hws, rfl⟩ := Option.map_eq_some_iff.mp h
    refine ⟨v, ctfeEval_mono hw hcall σ e hv, ?_⟩
    rw [ctfeArgs_mono hw hcall σ es hws, Option.map_some]

end

theorem ctfeBody_mono (hw : P.Within Q) (hcall : ∀ c vs v, call c vs = some v → call' c vs = some v)
    {v : Int} {left : Nat} {σ : Scope} {body : List Stmt}
    (h : ctfeBody P call left σ body = some v) : ctfeBody Q call' left σ body = some v := by
  induction body generalizing left σ with
  | nil =>
    cases left <;> cases h
  | cons st rest ih =>
    cases st with
    | bind x ty e =>
      cases left with
      | zero => cases h
      | succ left =>
        rw [ctfeBody, Option.bind_eq_some_iff] at h ⊢
        obtain ⟨u, hu, h⟩ := h
        exact ⟨u, ctfeEval_mono hw hcall σ e hu, ih h⟩
    | ret e =>
      cases left <;> exact ctfeEval_mono hw hcall σ e h
    | other =>
      cases left <;> cases h

theorem ctfeCall_mono (hw : P.Within Q) (depth : Nat) (c : String) (vs : List Int) (v : Int)
    (h : ctfeCall P depth c vs = some v) : ctfeCall Q depth c vs = some v := by
  induction depth generalizing c vs v with
  | zero => cases h
  | succ depth ih =>
    rw [ctfeCall, Option.bind_eq_some_iff] at h ⊢
    obtain ⟨sig, hsig, h⟩ := h
    refine ⟨sig, ?_, ctfeBody_mono hw ih h⟩
    simp only [Program.foldable, Option.bind_eq_bind, Option.bind_eq_some_iff] at hsig ⊢
    obtain ⟨fn, hfn, hsig⟩ := hsig
    exact ⟨fn, hw.callables c fn hfn, hsig⟩

/-- What folds goes on to fold when more is declared. -/
theorem tryConstInt_mono (hw : P.Within Q) {e : Expr} {v : Int} (h : tryConstInt P e = some v) :
    tryConstInt Q e = some v := by
  rw [tryConstInt, Option.map_eq_some_iff] at h ⊢
  obtain ⟨u, hu, rfl⟩ := h
  exact ⟨u, ctfeEval_mono hw (ctfeCall_mono hw maxDepth) [] e hu, rfl⟩

/-- Two programs in which the same is found fold alike. -/
theorem tryConstInt_congr (hw : P.Within Q) (hw' : Q.Within P) (e : Expr) :
    tryConstInt P e = tryConstInt Q e :=
  Option.ext fun _ => ⟨tryConstInt_mono hw, tryConstInt_mono hw'⟩

end Within

end Arche.Semantic.ConstEval
