import Arche.Codegen.WasmGen
import Mathlib.Tactic.Common

/-!
# Validation of the emitted code

`check` is the validation algorithm of wasm on the operations and blocks the backend
emits. `Meets` is what the backend promises: every expression it emits pushes one value of
the type `wg_wtype` gives its resolved type, every statement leaves the operand stack as
it was, and the body of `_start` passes.

The backend does not look whether an operation, a field or a call is supported before it
replaces it by `i32.const 0`, nor whether a local of the name has another type. `Fits`
says, along the walk of the emission, where that is harmless; `meets_iff` that it is
exactly what the promise needs.
-/

namespace Arche.Codegen.WasmGen.Typing

/-! ## Validation -/

/-- The operand stack above the label of a block. Behind a branch it is polymorphic. -/
structure Stack where
  unreachable : Bool
  vals : List ValType
deriving DecidableEq, Repr

def Stack.empty : Stack := ⟨false, []⟩

def Stack.push (st : Stack) (t : ValType) : Stack := { st with vals := t :: st.vals }

def Stack.pop (t : ValType) (st : Stack) : Option Stack :=
  match st.vals with
  | v :: vs => if v = t then some { st with vals := vs } else none
  | [] => if st.unreachable then some st else none

def FBinop.result : FBinop → ValType
  | .add | .sub | .mul | .div => .f64
  | .eq | .ne | .lt | .gt | .le | .ge => .i32

def Access.type : Access → ValType
  | .f64 => .f64
  | .byte _ | .half _ | .word => .i32

/-- The operands of an operation, the topmost first, and its results. -/
def signature (ls : List ValType) : Op → Option (List ValType × List ValType)
  | .i32Const _ => some ([], [.i32])
  | .f64Const _ => some ([], [.f64])
  | .localGet i => ls[i]?.map fun t => ([], [t])
  | .localSet i => ls[i]?.map fun t => ([t], [])
  | .ibin _ => some ([.i32, .i32], [.i32])
  | .fbin o => some ([.f64, .f64], [FBinop.result o])
  | .convert => some ([.i32], [.f64])
  | .eqz => some ([.i32], [.i32])
  | .load a => some ([.i32], [Access.type a])
  | .store a => some ([Access.type a, .i32], [])
  | .call .print => some ([.i32, .i32], [])
  | .call .printf => some ([.i32, .i32, .i32, .i32], [])

def popAll : List ValType → Stack → Option Stack
  | [], st => some st
  | t :: ts, st => (st.pop t).bind (popAll ts)

def checkOp (ls : List ValType) (o : Op) (st : Stack) : Option Stack :=
  (signature ls o).bind fun s => (popAll s.1 st).map fun st => s.2.foldl Stack.push st

def checkOps (ls : List ValType) : List Op → Stack → Option Stack
  | [], st => some st
  | o :: os, st => (checkOp ls o st).bind (checkOps ls os)

/-- Nothing is left at the end of a block. -/
def Stack.atEnd (st : Stack) : Bool := st.vals == []

/-- `depth` labels can be branched to. -/
def check (ls : List ValType) (depth : Nat) : Code → Stack → Option Stack
  | .ops os, st => checkOps ls os st
  | .seq a b, st => (check ls depth a st).bind (check ls depth b)
  | .block c, st => ((check ls (depth + 1) c .empty).filter Stack.atEnd).map fun _ => st
  | .loop c, st => ((check ls (depth + 1) c .empty).filter Stack.atEnd).map fun _ => st
  | .ifElse t e, st =>
    (st.pop .i32).bind fun st =>
      ((check ls (depth + 1) t .empty).filter Stack.atEnd).bind fun _ =>
        ((check ls (depth + 1) e .empty).filter Stack.atEnd).map fun _ => st
  | .br n, _ => if n < depth then some ⟨true, []⟩ else none
  | .brIf n, st => if n < depth then st.pop .i32 else none

/-- The types of the declared locals. -/
def localTypes (g : Wg) : List ValType := g.locals.map (·.wt)

/-- The body of `_start` passes. The table its locals are written to has 256 places. -/
def Validates (p : Program) : Prop :=
  (generate p).2.localCount ≤ maxLocals ∧
    ((check (localTypes (generate p).2) 1
      ((generate p).1.foldr (fun c cs => .seq c.2 cs) (.ops [])) .empty).filter Stack.atEnd).isSome

/-! ## The promise -/

section Promise

variable (ls : List ValType)

def Pushes (os : List Op) (t : ValType) : Prop :=
  ∀ st : Stack, checkOps ls os st = some (st.push t)

def Balanced (c : Code) : Prop := ∀ (depth : Nat) (st : Stack), check ls depth c st = some st

abbrev Judge := Wg → Expr → Prop

variable (consts : List (String × Expr))

/-- The expressions emitted inside of one push their types. -/
def InsideWith (inline : Emit) (judge : Judge) : Judge
  | g, .name _ x =>
    match consts.find? (·.1 == x) with
    | some c => judge g c.2
    | none => True
  | g, .binary _ op l r =>
    match binopOps op (wtype l.resolved) (wtype r.resolved) with
    | some _ =>
      let el := emitExprWith consts inline g l
      let er := emitExprWith consts inline el.2 r
      (Pushes ls el.1 (wtype l.resolved) ∧ InsideWith inline judge g l) ∧
        Pushes ls er.1 (wtype r.resolved) ∧ InsideWith inline judge el.2 r
    | none => True
  | g, .index _ base count first =>
    match base.name?.bind (arrayFind g) with
    | some _ =>
      if count = 1 then
        Pushes ls (emitExprWith consts inline g first).1 (wtype first.resolved) ∧
          InsideWith inline judge g first
      else True
    | none => True
  | _, _ => True

/-- The expression and those emitted inside of it push their types. -/
def SoundWith (inline : Emit) (judge : Judge) : Judge := fun g e =>
  Pushes ls (emitExprWith consts inline g e).1 (wtype e.resolved) ∧ InsideWith ls consts inline judge g e

def SoundDepth : Nat → Judge
  | 0 => fun g e => Pushes ls (emitDepth consts 0 g e).1 (wtype e.resolved)
  | n + 1 => SoundWith ls consts (emitDepth consts n) (SoundDepth n)

def SoundExpr : Judge := SoundDepth ls consts (consts.length + 1)

def SoundElements (g : Wg) (a : Array) (k : Nat) : List Expr → Prop
  | [] => True
  | e :: es => k < a.total →
    SoundExpr ls consts g e ∧ SoundElements (emitAs consts a.elemWt g e).2 a (k + 1) es

def SoundSlots (g : Wg) (slot : Nat) : List Expr → Prop
  | [] => True
  | e :: es =>
    ((∀ t v, e ≠ .string t v) → e.resolved ≠ .charArray → SoundExpr ls consts g e) ∧
      SoundSlots (emitSlot consts g slot e).2 (slot + 8) es

def InsideBind (g : Wg) (name : String) (type : HirType) (value : Init) : Prop :=
  match bindArrayType type value with
  | some t =>
    match (arrayDecl g name t).1, value with
    | some a, .arrayLiteral _ es => SoundElements ls consts (arrayDecl g name t).2 a 0 es
    | _, _ => True
  | none =>
    match value with
    | .none => True
    | .expr e => SoundExpr ls consts g e
    | .arrayLiteral t _ => Pushes ls [.i32Const 0] (wtype t)

def InsideAssign (g : Wg) (op : Option Operator) (value : Expr) : Expr → Prop
  | .index _ base count first =>
    match base.name?.bind (arrayFind g) with
    | some _ =>
      count = 1 →
        let g₁ := (emitExpr consts g first).2
        SoundExpr ls consts g first ∧
          match op with
          | none => SoundExpr ls consts g₁ value
          | some _ =>
            SoundExpr ls consts g₁ first ∧ SoundExpr ls consts (emitExpr consts g₁ first).2 value
    | none => True
  | .name t x => SoundExpr ls consts (wgLocal g x (wtype t)).2 value
  | _ => True

def InsidePrint (g : Wg) (e : CallExpr) : Prop :=
  match printArgs e with
  | some (.string _ fmt :: args) =>
    SoundSlots ls consts (logArgs (internString g fmt).2.2 args.length) argsBase args
  | _ => True

mutual

/-- The statement leaves the stack as it was, and what is emitted inside of it keeps the promise. -/
def SoundStmt (g : Wg) : Stmt → Prop
  | .bind name type value =>
    Balanced ls (.ops (emitBind consts g name type value).1) ∧ InsideBind ls consts g name type value
  | .assign target op value =>
    Balanced ls (.ops (emitAssign consts g op value target).1) ∧
      InsideAssign ls consts g op value target
  | .forLoop init cond incr body =>
    Balanced ls (emitStmt consts g (.forLoop init cond incr body)).1 ∧
      let g₁ := (emitStmt consts g init).2
      let g₂ := (emitCond consts g₁ cond).2
      SoundStmt g init ∧ (∀ e ∈ cond, SoundExpr ls consts g₁ e) ∧ SoundStmts g₂ body ∧
        SoundStmt (emitStmts consts g₂ body).2 incr
  | .ifElse cond thenBody elseBody =>
    Balanced ls (emitStmt consts g (.ifElse cond thenBody elseBody)).1 ∧
      let g₁ := (emitExpr consts g cond).2
      SoundExpr ls consts g cond ∧ SoundStmts g₁ thenBody ∧
        SoundStmts (emitStmts consts g₁ thenBody).2 elseBody
  | .expr e => Balanced ls (emitStmt consts g (.expr e)).1 ∧ InsidePrint ls consts g e
  | .null | .block _ | .brk | .cont | .ret | .other => Balanced ls (.ops [])

def SoundStmts (g : Wg) : List Stmt → Prop
  | [] => True
  | s :: ss => SoundStmt g s ∧ SoundStmts (emitStmt consts g s).2 ss

end

end Promise

/-- What `wasmgen_generate` promises of the code of a program. -/
def Meets (p : Program) : Prop :=
  SoundStmts (localTypes (generate p).2) (constsOf p) .init (entryStmts p) ∧
    Validates p

/-! ## Where it holds -/

section Condition

/-- The local is known with the wanted type, or there is room for it and this is its type. -/
def LocalFits (g : Wg) (x : String) (wt wanted : ValType) : Prop :=
  match g.locals.find? (·.name == x) with
  | some l => l.wt = wanted
  | none => g.localCount < maxLocals ∧ wt = wanted

def Op.result : Op → ValType
  | .fbin o => FBinop.result o
  | _ => .i32

variable (consts : List (String × Expr))

def FitsWith (inline : Emit) (judge : Judge) : Judge
  | _, .literal _ _ => True
  | g, .name t x =>
    match consts.find? (·.1 == x) with
    | some c => judge g c.2 ∧ wtype c.2.resolved = wtype t
    | none => LocalFits g x (wtype t) (wtype t)
  | g, .binary t op l r =>
    match binopOps op (wtype l.resolved) (wtype r.resolved) with
    | some (_, _, o) =>
      FitsWith inline judge g l ∧ FitsWith inline judge (emitExprWith consts inline g l).2 r ∧
        Op.result o = wtype t
    | none => wtype t = .i32
  | g, .index t base count first =>
    match base.name?.bind (arrayFind g) with
    | some a =>
      if count = 1 then
        FitsWith inline judge g first ∧ wtype first.resolved = .i32 ∧ Access.type a.access = wtype t
      else wtype t = .i32
    | none => wtype t = .i32
  | _, .unary t _ _ | _, .field t _ _ | _, .string t _ | _, .other t => wtype t = .i32

def FitsDepth : Nat → Judge
  | 0 => fun _ e => wtype e.resolved = .i32
  | n + 1 => FitsWith consts (emitDepth consts n) (FitsDepth n)

def FitsExpr : Judge := FitsDepth consts (consts.length + 1)

/-- The value may be stored to a place of the type. -/
def FitsAs (wt : ValType) (e : Expr) : Prop := wt = .f64 ∨ wtype e.resolved = .i32

def FitsElements (g : Wg) (a : Array) (k : Nat) : List Expr → Prop
  | [] => True
  | e :: es => k < a.total →
    FitsExpr consts g e ∧ FitsAs a.elemWt e ∧
      FitsElements (emitAs consts a.elemWt g e).2 a (k + 1) es

def FitsSlots (g : Wg) (slot : Nat) : List Expr → Prop
  | [] => True
  | e :: es =>
    ((∀ t v, e ≠ .string t v) → e.resolved ≠ .charArray → FitsExpr consts g e) ∧
      FitsSlots (emitSlot consts g slot e).2 (slot + 8) es

/-- The operation of a compound assignment is supported for the type, and gives it. -/
def FitsCompound (wt : ValType) (op : Operator) : Prop :=
  match compoundOp wt op with
  | [o] => Op.result o = wt
  | _ => False

def FitsBind (g : Wg) (name : String) (type : HirType) (value : Init) : Prop :=
  match bindArrayType type value with
  | some t =>
    match (arrayDecl g name t).1, value with
    | some a, .arrayLiteral _ es => FitsElements consts (arrayDecl g name t).2 a 0 es
    | _, _ => True
  | none =>
    match value with
    | .none => LocalFits g name .i32 .i32
    | .expr e =>
      FitsExpr consts g e ∧
        LocalFits (emitExpr consts g e).2 name (wtype e.resolved) (wtype e.resolved)
    | .arrayLiteral t _ => wtype t = .i32 ∧ LocalFits g name .i32 .i32

def FitsAssign (g : Wg) (op : Option Operator) (value : Expr) : Expr → Prop
  | .index _ base count first =>
    match base.name?.bind (arrayFind g) with
    | some a =>
      count = 1 →
        let g₁ := (emitExpr consts g first).2
        FitsExpr consts g first ∧ wtype first.resolved = .i32 ∧ FitsAs a.elemWt value ∧
          match op with
          | none => FitsExpr consts g₁ value
          | some o =>
            FitsExpr consts g₁ first ∧ FitsExpr consts (emitExpr consts g₁ first).2 value ∧
              FitsCompound a.elemWt o
    | none => True
  | .name t x =>
    FitsExpr consts (wgLocal g x (wtype t)).2 value ∧
      match op with
      | none => LocalFits g x (wtype t) (wtype value.resolved)
      | some o =>
        LocalFits g x (wtype t) (wtype t) ∧ FitsAs (wtype t) value ∧ FitsCompound (wtype t) o
  | _ => True

def FitsPrint (g : Wg) (e : CallExpr) : Prop :=
  match printArgs e with
  | some (.string _ fmt :: args) =>
    FitsSlots consts (logArgs (internString g fmt).2.2 args.length) argsBase args
  | _ => True

mutual

def FitsStmt (g : Wg) : Stmt → Prop
  | .bind name type value => FitsBind consts g name type value
  | .assign target op value => FitsAssign consts g op value target
  | .forLoop init cond incr body =>
    let g₁ := (emitStmt consts g init).2
    let g₂ := (emitCond consts g₁ cond).2
    FitsStmt g init ∧ (∀ e ∈ cond, FitsExpr consts g₁ e ∧ wtype e.resolved = .i32) ∧
      FitsStmts g₂ body ∧ FitsStmt (emitStmts consts g₂ body).2 incr
  | .ifElse cond thenBody elseBody =>
    let g₁ := (emitExpr consts g cond).2
    (FitsExpr consts g cond ∧ wtype cond.resolved = .i32) ∧ FitsStmts g₁ thenBody ∧
      FitsStmts (emitStmts consts g₁ thenBody).2 elseBody
  | .expr e => FitsPrint consts g e
  | .null | .block _ | .brk | .cont | .ret | .other => True

def FitsStmts (g : Wg) : List Stmt → Prop
  | [] => True
  | s :: ss => FitsStmt g s ∧ FitsStmts (emitStmt consts g s).2 ss

end

end Condition

/-! ## The stack -/

section Stacks

variable {ls : List ValType} {os os' : List Op} {t u : ValType} {st : Stack}

@[simp] theorem pop_push (st : Stack) (t u : ValType) :
    (st.push t).pop u = if t = u then some st else none := rfl

theorem checkOps_append (os os' : List Op) (st : Stack) :
    checkOps ls (os ++ os') st = (checkOps ls os st).bind (checkOps ls os') := by
  induction os generalizing st with
  | nil => rfl
  | cons o os ih =>
    simp only [List.cons_append, checkOps]
    cases checkOp ls o st with
    | none => rfl
    | some st => exact ih st

theorem push_injective (h : st.push t = st.push u) : t = u :=
  (List.cons.inj (Stack.mk.inj h).2).1

theorem Pushes.unique (h : Pushes ls os t) (h' : Pushes ls os u) : t = u :=
  push_injective (Option.some.inj ((h .empty).symm.trans (h' .empty)))

theorem pushes_const (v : Int) : Pushes ls [.i32Const v] .i32 := fun _ => rfl

theorem pushes_const_iff {v : Int} : Pushes ls [.i32Const v] t ↔ t = .i32 := by
  constructor
  · intro h
    exact h.unique (pushes_const v)
  · rintro rfl
    exact pushes_const v

theorem pushes_localGet_iff {i : Nat} : Pushes ls [.localGet i] t ↔ ls[i]? = some t := by
  constructor
  · intro h
    have hempty := h .empty
    cases hi : ls[i]? with
    | none => simp [checkOps, checkOp, signature, hi] at hempty
    | some u =>
      simp only [checkOps, checkOp, signature, hi, Option.map_some, Option.bind_some, popAll,
        List.foldl_cons, List.foldl_nil, Option.some.injEq] at hempty
      rw [push_injective hempty]
  · intro h st
    simp [checkOps, checkOp, signature, h, popAll]

/-- A value that was pushed is there for the operations behind. -/
theorem Pushes.append (h : Pushes ls os t) (os' : List Op) (st : Stack) :
    checkOps ls (os ++ os') st = checkOps ls os' (st.push t) := by
  rw [checkOps_append, h st, Option.bind_some]

theorem checkOps_cons (o : Op) (os : List Op) (st : Stack) :
    checkOps ls (o :: os) st = (checkOp ls o st).bind (checkOps ls os) := rfl

@[simp] theorem checkOp_const (v : Int) (st : Stack) :
    checkOp ls (.i32Const v) st = some (st.push .i32) := rfl

@[simp] theorem checkOp_ibin (o : IBinop) (st : Stack) (t u : ValType) :
    checkOp ls (.ibin o) ((st.push t).push u) =
      if t = .i32 ∧ u = .i32 then some (st.push .i32) else none := by
  cases t <;> cases u <;> rfl

@[simp] theorem checkOp_fbin (o : FBinop) (st : Stack) (t u : ValType) :
    checkOp ls (.fbin o) ((st.push t).push u) =
      if t = .f64 ∧ u = .f64 then some (st.push (FBinop.result o)) else none := by
  cases t <;> cases u <;> rfl

@[simp] theorem checkOp_convert (st : Stack) (t : ValType) :
    checkOp ls .convert (st.push t) = if t = .i32 then some (st.push .f64) else none := by
  cases t <;> rfl

@[simp] theorem checkOp_load (a : Access) (st : Stack) (t : ValType) :
    checkOp ls (.load a) (st.push t) = if t = .i32 then some (st.push (Access.type a)) else none := by
  cases t <;> rfl

@[simp] theorem checkOp_store (a : Access) (st : Stack) (t u : ValType) :
    checkOp ls (.store a) ((st.push t).push u) =
      if u = Access.type a ∧ t = .i32 then some st else none := by
  cases t <;> cases u <;> cases a <;> rfl

@[simp] theorem checkOp_localSet (i : Nat) (st : Stack) (t : ValType) :
    checkOp ls (.localSet i) (st.push t) = if ls[i]? = some t then some st else none := by
  cases hi : ls[i]? with
  | none => simp [checkOp, signature, hi]
  | some u =>
    by_cases htu : t = u
    · simp [checkOp, signature, hi, popAll, htu]
    · simp [checkOp, signature, hi, popAll, htu, Ne.symm htu]

theorem access_type (a : Array) : Access.type a.access = a.elemWt := by
  unfold Array.access
  cases a.elemWt with
  | f64 => rfl
  | i32 =>
    simp only [reduceCtorEq, if_false]
    split
    · rfl
    · split <;> rfl

end Stacks

/-! ## The locals -/

section Locals

variable {g gf : Wg} {x : String} {wt u : ValType}

/-- Names beyond the table are counted only. -/
def Counted (g : Wg) : Prop := g.locals.length = min g.localCount maxLocals

def Grows (g g' : Wg) : Prop :=
  g.locals <+: g'.locals ∧ g.localCount ≤ g'.localCount ∧ (Counted g → Counted g')

theorem kept_grows : Wg.Kept Grows where
  refl g := ⟨List.prefix_rfl, Nat.le_refl _, id⟩
  trans h h' := ⟨h.1.trans h'.1, Nat.le_trans h.2.1 h'.2.1, h'.2.2 ∘ h.2.2⟩
  wgLocal g x wt := by
    unfold wgLocal
    split
    · exact ⟨List.prefix_rfl, Nat.le_refl _, id⟩
    · refine ⟨?_, Nat.le_succ _, fun hc => ?_⟩
      · simp only
        split
        · exact List.prefix_append _ _
        · exact List.prefix_rfl
      · unfold Counted at *
        simp only
        split
        · rw [List.length_append, List.length_singleton]
          omega
        · omega
  intern g raw := ⟨List.prefix_rfl, Nat.le_refl _, id⟩
  logArgs g n := ⟨List.prefix_rfl, Nat.le_refl _, id⟩
  declare g x t := by
    unfold arrayDecl
    split <;> exact ⟨List.prefix_rfl, Nat.le_refl _, id⟩

/-- The type of the local a name is given. -/
theorem localFits_iff (hc : Counted g) (hg : Grows (wgLocal g x wt).2 gf)
    (hroom : gf.localCount ≤ maxLocals) :
    (localTypes gf)[(wgLocal g x wt).1]? = some u ↔ LocalFits g x wt u := by
  obtain ⟨hpre, hcount, -⟩ := hg
  have hget {i : Nat} {l : Local} (hl : (wgLocal g x wt).2.locals[i]? = some l) :
      (localTypes gf)[i]? = some l.wt := by
    obtain ⟨rest, hrest⟩ := hpre
    obtain ⟨hlt, -⟩ := List.getElem?_eq_some_iff.mp hl
    rw [localTypes, List.getElem?_map, ← hrest, List.getElem?_append_left hlt, hl]
    rfl
  unfold LocalFits
  rw [List.find?_eq_bind_findIdx?_getElem?]
  unfold wgLocal at *
  cases hidx : g.locals.findIdx? (·.name == x) with
  | some i =>
    simp only [hidx] at hget ⊢
    obtain ⟨hlt, -⟩ := List.findIdx?_eq_some_iff_getElem.mp hidx
    have hl : g.locals[i]? = some g.locals[i] := List.getElem?_eq_getElem hlt
    rw [hget hl, Option.bind_some, hl]
    exact Option.some_inj
  | none =>
    simp only [hidx] at hcount hget ⊢
    have hfree : g.localCount < maxLocals := by omega
    have hlen : g.locals.length = g.localCount := by
      rw [hc]
      omega
    have hl : (if g.localCount < maxLocals then g.locals ++ [⟨x, wt⟩] else g.locals)[g.localCount]? =
        some ⟨x, wt⟩ := by
      rw [if_pos hfree, ← hlen, List.getElem?_append_right (Nat.le_refl _), Nat.sub_self]
      rfl
    rw [hget hl, Option.bind_none]
    simp only [Option.some.injEq, hfree, true_and]

end Locals

/-! ## Expressions -/

section Expressions

variable {ls : List ValType} {consts : List (String × Expr)} {gf : Wg}

theorem pushes_literal (t : HirType) (lexeme : List Char) :
    Pushes ls [literalOp t lexeme] (wtype t) := by
  unfold literalOp
  cases htype : wtype t with
  | f64 => exact fun _ => rfl
  | i32 =>
    simp only [reduceCtorEq, if_false]
    split
    · exact pushes_const _
    split
    · exact pushes_const _
    split <;> exact pushes_const _

/-- Operands that push their types are what the operation of their types takes. -/
theorem pushes_binop {op : Operator} {lt rt : ValType} {cl cr os os' : List Op} {o : Op}
    (hop : binopOps op lt rt = some (cl, cr, o)) (hl : Pushes ls os lt) (hr : Pushes ls os' rt) :
    Pushes ls (os ++ cl ++ os' ++ cr ++ [o]) (Op.result o) := by
  intro st
  simp only [List.append_assoc]
  rw [hl.append]
  unfold binopOps at hop
  split at hop
  · next hfloat =>
    obtain ⟨f, -, hf⟩ := Option.map_eq_some_iff.mp hop
    obtain ⟨rfl, hrest⟩ := Prod.mk.inj hf
    obtain ⟨rfl, rfl⟩ := Prod.mk.inj hrest
    have hcoerce (t : ValType) (os : List Op) (st : Stack) :
        checkOps ls ((if t = .f64 then [] else [.convert]) ++ os) (st.push t) =
          checkOps ls os (st.push .f64) := by
      cases t with
      | f64 => rfl
      | i32 => simp [checkOps_cons]
    rw [hcoerce, hr.append, hcoerce]
    simp [checkOps, Op.result]
  · next hint =>
    obtain ⟨i, -, hi⟩ := Option.map_eq_some_iff.mp hop
    obtain ⟨rfl, hrest⟩ := Prod.mk.inj hi
    obtain ⟨rfl, rfl⟩ := Prod.mk.inj hrest
    have hlt : lt = .i32 := by
      cases lt with
      | i32 => rfl
      | f64 => exact absurd (.inl rfl) hint
    have hrt : rt = .i32 := by
      cases rt with
      | i32 => rfl
      | f64 => exact absurd (.inr rfl) hint
    subst hlt
    subst hrt
    rw [List.nil_append, hr.append, List.nil_append]
    simp [checkOps, Op.result]

/-- The address of an element needs an integer index. -/
theorem checkOps_elemAddr {a : Array} {os : List Op} {w : ValType} (h : Pushes ls os w)
    (os' : List Op) (st : Stack) :
    checkOps ls (elemAddr a os ++ os') st =
      if w = .i32 then checkOps ls os' (st.push .i32) else none := by
  unfold elemAddr
  simp only [List.append_assoc, List.cons_append, List.nil_append, checkOps_cons, checkOp_const,
    Option.bind_some]
  rw [h.append]
  by_cases hsize : a.elemSize = 1
  · cases w <;> simp [hsize, checkOps_cons]
  · cases w <;> simp [hsize, checkOps_cons]

theorem pushes_index_iff {a : Array} {os : List Op} {w t : ValType} (h : Pushes ls os w) :
    Pushes ls (elemAddr a os ++ [.load a.access]) t ↔ w = .i32 ∧ Access.type a.access = t := by
  have hcheck (st : Stack) : checkOps ls (elemAddr a os ++ [.load a.access]) st =
      if w = .i32 then some (st.push (Access.type a.access)) else none := by
    rw [checkOps_elemAddr h]
    split
    · simp [checkOps]
    · rfl
  unfold Pushes
  simp only [hcheck]
  constructor
  · intro h
    have hempty := h .empty
    split at hempty
    · next hw => exact ⟨hw, push_injective (Option.some.inj hempty)⟩
    · cases hempty
  · rintro ⟨hw, rfl⟩ st
    rw [if_pos hw]

/-- An expression keeps the promise exactly if it fits, given that of the constants. -/
theorem soundWith_iff {inline : Emit} {sound fits : Judge} (hroom : gf.localCount ≤ maxLocals)
    (hgrows : ∀ g e, Grows g (inline g e).2)
    (hpush : ∀ g e, sound g e → Pushes (localTypes gf) (inline g e).1 (wtype e.resolved))
    (hinline : ∀ g e, Counted g → Grows (inline g e).2 gf → (sound g e ↔ fits g e))
    (e : Expr) (g : Wg) (hc : Counted g) (hg : Grows (emitExprWith consts inline g e).2 gf) :
    SoundWith (localTypes gf) consts inline sound g e ↔ FitsWith consts inline fits g e := by
  have hkept := kept_grows.toKept
  induction e generalizing g with
  | literal t lexeme => exact iff_of_true ⟨pushes_literal t lexeme, trivial⟩ trivial
  | unary t op e _ => exact (and_iff_left trivial).trans pushes_const_iff
  | string t value => exact (and_iff_left trivial).trans pushes_const_iff
  | other t => exact (and_iff_left trivial).trans pushes_const_iff
  | field t base fieldName _ =>
    unfold SoundWith
    rw [emitExprWith, FitsWith]
    refine (and_iff_left trivial).trans ?_
    split <;> exact pushes_const_iff
  | name t x =>
    unfold SoundWith
    rw [emitExprWith, InsideWith, FitsWith] at *
    cases hfind : consts.find? (·.1 == x) with
    | none =>
      simp only [hfind] at hg ⊢
      rw [and_iff_left trivial]
      exact pushes_localGet_iff.trans (localFits_iff hc hg hroom)
    | some c =>
      simp only [hfind] at hg ⊢
      rw [hinline g c.2 hc hg]
      constructor
      · rintro ⟨hown, hfits⟩
        have hvalue := hpush g c.2 ((hinline g c.2 hc hg).mpr hfits)
        exact ⟨hfits, hvalue.unique hown⟩
      · rintro ⟨hfits, htype⟩
        have hvalue := hpush g c.2 ((hinline g c.2 hc hg).mpr hfits)
        exact ⟨htype ▸ hvalue, hfits⟩
  | binary t op l r ihl ihr =>
    unfold SoundWith
    rw [emitExprWith, InsideWith, FitsWith] at *
    cases hop : binopOps op (wtype l.resolved) (wtype r.resolved) with
    | none =>
      simp only
      rw [and_iff_left trivial]
      exact pushes_const_iff
    | some ops =>
      obtain ⟨cl, cr, o⟩ := ops
      simp only [hop] at hg ⊢
      have hgl : Grows (emitExprWith consts inline g l).2 gf :=
        hkept.trans (hkept.exprWith hgrows _ _) hg
      have hcl : Counted (emitExprWith consts inline g l).2 := (hkept.exprWith hgrows g l).2.2 hc
      constructor
      · rintro ⟨hown, hl, hr⟩
        exact ⟨(ihl g hc hgl).mp hl, (ihr _ hcl hg).mp hr,
          (pushes_binop hop hl.1 hr.1).unique hown⟩
      · rintro ⟨hl, hr, htype⟩
        have hl := (ihl g hc hgl).mpr hl
        have hr := (ihr _ hcl hg).mpr hr
        exact ⟨htype ▸ pushes_binop hop hl.1 hr.1, hl, hr⟩
  | index t base count first _ ih =>
    unfold SoundWith
    rw [emitExprWith, InsideWith, FitsWith] at *
    cases hfind : base.name?.bind (arrayFind g) with
    | none =>
      simp only
      rw [and_iff_left trivial]
      exact pushes_const_iff
    | some a =>
      by_cases hcount : count = 1
      · simp only [hfind, hcount, if_true] at hg ⊢
        constructor
        · rintro ⟨hown, hfirst⟩
          obtain ⟨hw, ht⟩ := (pushes_index_iff hfirst.1).mp hown
          exact ⟨(ih g hc hg).mp hfirst, hw, ht⟩
        · rintro ⟨hfirst, hw, ht⟩
          have hfirst := (ih g hc hg).mpr hfirst
          exact ⟨(pushes_index_iff hfirst.1).mpr ⟨hw, ht⟩, hfirst⟩
      · simp only [hcount, if_false]
        rw [and_iff_left trivial]
        exact pushes_const_iff

theorem soundDepth_iff (hroom : gf.localCount ≤ maxLocals) (n : Nat) (g : Wg) (e : Expr)
    (hc : Counted g) (hg : Grows (emitDepth consts n g e).2 gf) :
    SoundDepth (localTypes gf) consts n g e ↔ FitsDepth consts n g e := by
  induction n generalizing g e with
  | zero => exact pushes_const_iff
  | succ n ih =>
    refine soundWith_iff hroom (kept_grows.toKept.depth n) (fun g e h => ?_) ih e g hc hg
    cases n with
    | zero => exact h
    | succ n => exact h.1

theorem soundExpr_iff (hroom : gf.localCount ≤ maxLocals) {g : Wg} {e : Expr} (hc : Counted g)
    (hg : Grows (emitExpr consts g e).2 gf) :
    SoundExpr (localTypes gf) consts g e ↔ FitsExpr consts g e := soundDepth_iff hroom _ g e hc hg

theorem SoundExpr.pushes {g : Wg} {e : Expr} (h : SoundExpr ls consts g e) :
    Pushes ls (emitExpr consts g e).1 (wtype e.resolved) := h.1

/-- What a value emitted for a place of the type pushes. -/
theorem pushes_as {g : Wg} {e : Expr} (h : SoundExpr ls consts g e) (wt : ValType) :
    Pushes ls (emitAs consts wt g e).1 (if wt = .f64 then .f64 else wtype e.resolved) := by
  unfold emitAs
  cases wt with
  | i32 => exact h.pushes
  | f64 =>
    intro st
    simp only [if_true, emitAsFloat]
    rw [h.pushes.append]
    cases wtype e.resolved with
    | f64 => rfl
    | i32 => simp [checkOps_cons, checkOps]

theorem fitsAs_iff {wt : ValType} {e : Expr} :
    (if wt = .f64 then .f64 else wtype e.resolved) = wt ↔ FitsAs wt e := by
  unfold FitsAs
  cases wt <;> simp

end Expressions

/-! ## Statements -/

section Statements

variable {ls : List ValType} {os os' : List Op} {t u w : ValType}

theorem balanced_ops_iff : Balanced ls (.ops os) ↔ ∀ st, checkOps ls os st = some st :=
  ⟨fun h => h 0, fun h _ => h⟩

theorem push_ne (st : Stack) (t : ValType) : st.push t ≠ st := by
  intro h
  have := congrArg (fun st : Stack => st.vals.length) h
  simp [Stack.push] at this

/-- A value behind an address. -/
theorem checkOps_store (h : Pushes ls os w) (b : Int) (a : Access) (rest : List Op) (st : Stack) :
    checkOps ls ([.i32Const b] ++ os ++ [.store a] ++ rest) st =
      if w = Access.type a then checkOps ls rest st else none := by
  simp only [List.append_assoc, List.cons_append, List.nil_append, checkOps_cons, checkOp_const,
    Option.bind_some]
  rw [h.append]
  simp only [checkOps_cons, checkOp_store, and_true]
  split <;> rfl

theorem balanced_set_iff {i : Nat} (h : Pushes ls os t) :
    Balanced ls (.ops (os ++ [.localSet i])) ↔ ls[i]? = some t := by
  have hcheck (st : Stack) : checkOps ls (os ++ [.localSet i]) st =
      if ls[i]? = some t then some st else none := by
    rw [h.append]
    simp only [checkOps, checkOp_localSet]
    split <;> rfl
  rw [balanced_ops_iff]
  simp only [hcheck]
  constructor
  · intro h
    by_contra hne
    simpa [hne] using h .empty
  · intro h st
    rw [if_pos h]

/-- The operation of a compound assignment, if there is one, takes two operands of the type. -/
theorem compoundOp_cases (ls : List ValType) (wt : ValType) (op : Operator) :
    compoundOp wt op = [] ∨ ∃ o, compoundOp wt op = [o] ∧ ∀ (t u : ValType) (st : Stack),
      checkOp ls o ((st.push t).push u) =
        if t = wt ∧ u = wt then some (st.push (Op.result o)) else none := by
  cases wt with
  | f64 =>
    cases hop : binopF op with
    | none => exact .inl (by simp [compoundOp, hop])
    | some f => exact .inr ⟨.fbin f, by simp [compoundOp, hop], fun t u st => checkOp_fbin f st t u⟩
  | i32 =>
    cases hop : binopI op with
    | none => exact .inl (by simp [compoundOp, hop])
    | some i => exact .inr ⟨.ibin i, by simp [compoundOp, hop], fun t u st => checkOp_ibin i st t u⟩

theorem balanced_compound_iff {i : Nat} {wt : ValType} {op : Operator} (h : Pushes ls os u) :
    Balanced ls (.ops ([.localGet i] ++ os ++ compoundOp wt op ++ [.localSet i])) ↔
      ls[i]? = some wt ∧ u = wt ∧ FitsCompound wt op := by
  rw [balanced_ops_iff]
  simp only [List.append_assoc, List.cons_append, List.nil_append, checkOps_cons]
  cases hi : ls[i]? with
  | none =>
    simp only [checkOp, signature, hi, Option.map_none, Option.bind_none, reduceCtorEq, false_and]
    exact iff_of_false (fun h => h .empty) id
  | some v =>
    have hget (st : Stack) : checkOp ls (.localGet i) st = some (st.push v) := by
      simp [checkOp, signature, hi, popAll]
    simp only [hget, Option.bind_some, h.append]
    unfold FitsCompound
    rcases compoundOp_cases ls wt op with hnil | ⟨o, ho, hcheck⟩
    · simp only [hnil, List.nil_append, checkOps, checkOp_localSet, hi, Option.some.injEq]
      refine iff_of_false (fun h => ?_) fun h => h.2.2
      have hempty := h .empty
      split at hempty
      · exact push_ne _ _ (Option.some.inj hempty)
      · cases hempty
    · simp only [ho, List.cons_append, List.nil_append, checkOps, hcheck, Option.some.injEq]
      constructor
      · intro h
        have hempty := h .empty
        split at hempty
        · next hv =>
          obtain ⟨rfl, rfl⟩ := hv
          simp only [Option.bind_some, checkOp_localSet, hi, Option.some.injEq] at hempty
          split at hempty
          · next hr => exact ⟨rfl, rfl, hr.symm⟩
          · cases hempty
        · cases hempty
      · rintro ⟨rfl, rfl, hr⟩ st
        simp [hi, hr]

theorem balanced_index_iff {a : Array} (h : Pushes ls os w) (h' : Pushes ls os' u) :
    Balanced ls (.ops (elemAddr a os ++ os' ++ [.store a.access])) ↔ w = .i32 ∧ u = a.elemWt := by
  have hcheck (st : Stack) : checkOps ls (elemAddr a os ++ os' ++ [.store a.access]) st =
      if w = .i32 ∧ u = a.elemWt then some st else none := by
    rw [List.append_assoc, checkOps_elemAddr h, h'.append]
    simp only [checkOps, checkOp_store, access_type, and_true]
    by_cases hw : w = .i32 <;> by_cases hu : u = a.elemWt <;> simp [hw, hu]
  rw [balanced_ops_iff]
  simp only [hcheck]
  constructor
  · intro h
    by_contra hne
    simpa [hne] using h .empty
  · intro h st
    rw [if_pos h]

theorem balanced_index_compound_iff {a : Array} {os₁ os₂ : List Op} {op : Operator}
    (h : Pushes ls os w) (h₁ : Pushes ls os₁ w) (h₂ : Pushes ls os₂ u) :
    Balanced ls (.ops (elemAddr a os ++ elemAddr a os₁ ++ [.load a.access] ++ os₂ ++
        compoundOp a.elemWt op ++ [.store a.access])) ↔
      w = .i32 ∧ u = a.elemWt ∧ FitsCompound a.elemWt op := by
  rw [balanced_ops_iff]
  simp only [List.append_assoc, checkOps_elemAddr h, checkOps_elemAddr h₁]
  cases w with
  | f64 =>
    simp only [reduceCtorEq, if_false, false_and]
    exact iff_of_false (fun h => h .empty) id
  | i32 =>
    simp only [if_true, List.cons_append, List.nil_append, checkOps_cons, checkOp_load,
      Option.bind_some, h₂.append, access_type, true_and]
    unfold FitsCompound
    rcases compoundOp_cases ls a.elemWt op with hnil | ⟨o, ho, hcheck⟩
    · simp only [hnil, List.nil_append, checkOps, checkOp_store, access_type]
      refine iff_of_false (fun h => ?_) fun h => h.2
      have hempty := h .empty
      split at hempty
      · exact push_ne _ _ (Option.some.inj hempty)
      · cases hempty
    · simp only [ho, List.cons_append, List.nil_append, checkOps, hcheck, true_and]
      constructor
      · intro h
        have hempty := h .empty
        split at hempty
        · next hu =>
          simp only [Option.bind_some, checkOp_store, access_type, and_true] at hempty
          split at hempty
          · next hr => exact ⟨hu, hr⟩
          · cases hempty
        · cases hempty
      · rintro ⟨hu, hr⟩ st
        simp [hu, hr, access_type]

theorem balanced_seq {a b : Code} (ha : Balanced ls a) (hb : Balanced ls b) :
    Balanced ls (.seq a b) := fun depth st => by rw [check, ha, Option.bind_some, hb]

/-- A loop is balanced if its parts are and its condition is an integer. -/
theorem balanced_loop {init body incr cond : Code} (hinit : Balanced ls init)
    (hbody : Balanced ls body) (hincr : Balanced ls incr)
    (hcond : ∀ depth, 1 < depth → check ls depth cond .empty = some .empty) :
    Balanced ls (.seq init (.block (.loop (.seq cond (.seq body (.seq incr (.br 0))))))) := by
  intro depth st
  have hloop : check ls (depth + 1 + 1) (.seq cond (.seq body (.seq incr (.br 0)))) .empty =
      some ⟨true, []⟩ := by
    simp only [check, hcond _ (by omega : 1 < depth + 1 + 1), Option.bind_some, hbody _ _, hincr _ _]
    rw [if_pos (by omega)]
  rw [check, hinit, Option.bind_some, check, check, hloop]
  rfl

theorem check_cond_iff {depth : Nat} (hdepth : 1 < depth) (h : Pushes ls os t) :
    check ls depth (.seq (.ops (os ++ [.eqz])) (.brIf 1)) .empty = some .empty ↔ t = .i32 := by
  have hcheck : check ls depth (.seq (.ops (os ++ [.eqz])) (.brIf 1)) .empty =
      if t = .i32 then some .empty else none := by
    rw [check, check, h.append]
    cases t with
    | i32 => exact if_pos hdepth
    | f64 => rfl
  rw [hcheck]
  cases t <;> simp

/-- A loop whose condition is no integer does not pass. -/
theorem not_balanced_loop {init body incr : Code} (hinit : Balanced ls init)
    (h : Pushes ls os .f64) : ¬Balanced ls (.seq init (.block (.loop
      (.seq (.seq (.ops (os ++ [.eqz])) (.brIf 1)) (.seq body (.seq incr (.br 0))))))) := by
  intro hbal
  have hempty := hbal 0 .empty
  have hcond : checkOps ls (os ++ [.eqz]) .empty = none := by
    rw [h.append]
    rfl
  simp only [check, hinit _ _, hcond, Option.bind_some, Option.bind_none, Option.filter_none,
    Option.map_none, reduceCtorEq] at hempty

theorem balanced_if_iff {c c' : Code} (h : Pushes ls os t) (hc : Balanced ls c)
    (hc' : Balanced ls c') : Balanced ls (.seq (.ops os) (.ifElse c c')) ↔ t = .i32 := by
  have hcheck (depth : Nat) (st : Stack) : check ls depth (.seq (.ops os) (.ifElse c c')) st =
      if t = .i32 then some st else none := by
    rw [check, check, h st, Option.bind_some, check, pop_push]
    cases t with
    | i32 =>
      rw [hc, hc']
      rfl
    | f64 => rfl
  unfold Balanced
  simp only [hcheck]
  constructor
  · intro h
    by_contra hne
    simpa [hne] using h 0 .empty
  · intro h _ st
    rw [if_pos h]

end Statements

/-! ## The promise and the condition -/

section Exact

variable {consts : List (String × Expr)} {gf : Wg}

theorem soundElements_iff (hroom : gf.localCount ≤ maxLocals) {g : Wg} (a : Array) (k : Nat)
    (es : List Expr) (hc : Counted g) (hg : Grows (emitElements consts g a k es).2 gf) :
    (SoundElements (localTypes gf) consts g a k es ∧
      ∀ st, checkOps (localTypes gf) (emitElements consts g a k es).1 st = some st) ↔
      FitsElements consts g a k es := by
  have hkept := kept_grows.toKept
  induction es generalizing g k with
  | nil => exact iff_of_true ⟨trivial, fun _ => rfl⟩ trivial
  | cons e es ih =>
    rw [SoundElements, FitsElements]
    by_cases hk : k < a.total
    · simp only [emitElements, hk, if_true, forall_const] at hg ⊢
      have hexpr : Grows (emitAs consts a.elemWt g e).2 gf :=
        hkept.trans (hkept.elements _ _ _ _) hg
      have hc' : Counted (emitAs consts a.elemWt g e).2 := (hkept.as _ g e).2.2 hc
      have hsound : SoundExpr (localTypes gf) consts g e ↔ FitsExpr consts g e :=
        soundExpr_iff hroom hc (by
          unfold emitAs at hexpr
          split at hexpr <;> exact hexpr)
      have hrest := ih (k + 1) hc' hg
      have htype : (if a.elemWt = .f64 then .f64 else wtype e.resolved) = Access.type a.access ↔
          FitsAs a.elemWt e := by
        rw [access_type]
        exact fitsAs_iff
      have hstore (he : SoundExpr (localTypes gf) consts g e) (st : Stack) := checkOps_store
        (pushes_as he a.elemWt) (a.base + k * a.elemSize : Nat) a.access
        (emitElements consts (emitAs consts a.elemWt g e).2 a (k + 1) es).1 st
      constructor
      · rintro ⟨⟨he, hes⟩, hbal⟩
        simp only [hstore he, Option.ite_none_right_eq_some] at hbal
        exact ⟨hsound.mp he, htype.mp (hbal .empty).1, hrest.mp ⟨hes, fun st => (hbal st).2⟩⟩
      · rintro ⟨he, hfits, hes⟩
        have he := hsound.mpr he
        obtain ⟨hes, hbal⟩ := hrest.mpr hes
        simp only [hstore he, Option.ite_none_right_eq_some]
        exact ⟨⟨he, hes⟩, fun st => ⟨htype.mpr hfits, hbal st⟩⟩
    · simp only [emitElements, hk, if_false, false_implies, true_and]
      exact iff_of_true (fun _ => rfl) trivial

/-- The arguments of `printf` are balanced as soon as they are sound. -/
theorem balanced_slot {g : Wg} (slot : Nat) (e : Expr)
    (h : (∀ t v, e ≠ .string t v) → e.resolved ≠ .charArray → SoundExpr (localTypes gf) consts g e)
    (rest : List Op) (st : Stack) :
    checkOps (localTypes gf) ((emitSlot consts g slot e).1 ++ rest) st =
      checkOps (localTypes gf) rest st := by
  unfold emitSlot
  split
  · rfl
  · next hne =>
    split
    · split <;> rfl
    · next htype =>
      have he := h (fun t v heq => hne t v heq) htype
      have hstore := checkOps_store he.pushes slot (if wtype e.resolved = .f64 then .f64 else .word) rest st
      have haccess : wtype e.resolved =
          Access.type (if wtype e.resolved = .f64 then .f64 else .word) := by
        cases wtype e.resolved <;> rfl
      rw [if_pos haccess] at hstore
      exact hstore

theorem soundSlots_iff (hroom : gf.localCount ≤ maxLocals) {g : Wg} (slot : Nat) (es : List Expr)
    (hc : Counted g) (hg : Grows (emitSlots consts g slot es).2 gf) :
    (SoundSlots (localTypes gf) consts g slot es ↔ FitsSlots consts g slot es) ∧
      (SoundSlots (localTypes gf) consts g slot es → ∀ rest st,
        checkOps (localTypes gf) ((emitSlots consts g slot es).1 ++ rest) st =
          checkOps (localTypes gf) rest st) := by
  induction es generalizing g slot with
  | nil => exact ⟨Iff.rfl, fun _ _ _ => rfl⟩
  | cons e es ih =>
    have hslot : Grows (emitSlot consts g slot e).2 gf := kept_grows.trans (kept_grows.slots _ _ _) hg
    have hc' : Counted (emitSlot consts g slot e).2 := (kept_grows.slot g slot e).2.2 hc
    obtain ⟨hiff, hbal⟩ := ih (slot + 8) hc' hg
    have hsound : ((∀ t v, e ≠ .string t v) → e.resolved ≠ .charArray →
        (SoundExpr (localTypes gf) consts g e ↔ FitsExpr consts g e)) := by
      intro hne htype
      refine soundExpr_iff hroom hc ?_
      unfold emitSlot at hslot
      split at hslot
      · exact absurd rfl (hne _ _)
      · rw [if_neg htype] at hslot
        exact hslot
    refine ⟨?_, fun h rest st => ?_⟩
    · rw [SoundSlots, FitsSlots, hiff]
      exact and_congr_left' (forall_congr' fun hne => forall_congr' fun htype => hsound hne htype)
    · rw [emitSlots, List.append_assoc, balanced_slot slot e h.1]
      exact hbal h.2 rest st

theorem soundBind_iff (hroom : gf.localCount ≤ maxLocals) {g : Wg} (name : String) (type : HirType)
    (value : Init) (hc : Counted g) (hg : Grows (emitBind consts g name type value).2 gf) :
    (Balanced (localTypes gf) (.ops (emitBind consts g name type value).1) ∧
      InsideBind (localTypes gf) consts g name type value) ↔ FitsBind consts g name type value := by
  unfold emitBind InsideBind FitsBind at *
  cases htype : bindArrayType type value with
  | some t =>
    simp only [htype] at hg ⊢
    have hc' : Counted (arrayDecl g name t).2 := (kept_grows.declare g name t).2.2 hc
    generalize arrayDecl g name t = d at *
    obtain ⟨a, g'⟩ := d
    cases a with
    | none => exact iff_of_true ⟨balanced_ops_iff.mpr fun _ => rfl, trivial⟩ trivial
    | some a =>
      cases value with
      | none => exact iff_of_true ⟨balanced_ops_iff.mpr fun _ => rfl, trivial⟩ trivial
      | expr e => exact iff_of_true ⟨balanced_ops_iff.mpr fun _ => rfl, trivial⟩ trivial
      | arrayLiteral t es =>
        rw [balanced_ops_iff]
        exact and_comm.trans (soundElements_iff hroom a 0 es hc' hg)
  | none =>
    simp only [htype] at hg ⊢
    have hset {g : Wg} {os : List Op} {t : ValType} (hc : Counted g)
        (hg : Grows (wgLocal g name t).2 gf) (h : Pushes (localTypes gf) os t) :
        Balanced (localTypes gf) (.ops (os ++ [.localSet (wgLocal g name t).1])) ↔
          LocalFits g name t t :=
      (balanced_set_iff h).trans (localFits_iff hc hg hroom)
    cases value with
    | none => exact (and_iff_left trivial).trans (hset hc hg (pushes_const 0))
    | expr e =>
      have hexpr : Grows (emitExpr consts g e).2 gf := kept_grows.trans (kept_grows.wgLocal _ _ _) hg
      have hc' : Counted (emitExpr consts g e).2 := (kept_grows.toKept.expr g e).2.2 hc
      have hsound := soundExpr_iff hroom hc hexpr
      constructor
      · rintro ⟨hbal, he⟩
        exact ⟨hsound.mp he, (hset hc' hg he.pushes).mp hbal⟩
      · rintro ⟨he, hlocal⟩
        have he := hsound.mpr he
        exact ⟨(hset hc' hg he.pushes).mpr hlocal, he⟩
    | arrayLiteral t es =>
      simp only at hg ⊢
      constructor
      · rintro ⟨hbal, hconst⟩
        have htype := pushes_const_iff.mp hconst
        rw [htype] at hg hbal
        exact ⟨htype, (hset hc hg (pushes_const 0)).mp hbal⟩
      · rintro ⟨htype, hlocal⟩
        rw [htype] at hg ⊢
        exact ⟨(hset hc hg (pushes_const 0)).mpr hlocal, pushes_const_iff.mpr rfl⟩

theorem soundAssign_iff (hroom : gf.localCount ≤ maxLocals) {g : Wg} (op : Option Operator)
    (value target : Expr) (hc : Counted g) (hg : Grows (emitAssign consts g op value target).2 gf) :
    (Balanced (localTypes gf) (.ops (emitAssign consts g op value target).1) ∧
      InsideAssign (localTypes gf) consts g op value target) ↔ FitsAssign consts g op value target := by
  have hkept := kept_grows.toKept
  have has {wt : ValType} {g : Wg} {e : Expr} (h : Grows (emitAs consts wt g e).2 gf) :
      Grows (emitExpr consts g e).2 gf := by
    unfold emitAs at h
    split at h <;> exact h
  cases target with
  | index t base count first =>
    unfold emitAssign InsideAssign FitsAssign at *
    cases hfind : base.name?.bind (arrayFind g) with
    | none =>
      simp only [hfind]
      exact iff_of_true ⟨balanced_ops_iff.mpr fun _ => rfl, trivial⟩ trivial
    | some a =>
      simp only [hfind] at hg ⊢
      by_cases hcount : count = 1
      · simp only [hcount, if_true, forall_const] at hg ⊢
        have hc₁ : Counted (emitExpr consts g first).2 := (hkept.expr g first).2.2 hc
        cases op with
        | none =>
          simp only at hg ⊢
          have hfirst := soundExpr_iff hroom hc (hkept.trans (hkept.as _ _ _) hg)
          have hvalue := soundExpr_iff hroom hc₁ (has hg)
          constructor
          · rintro ⟨hbal, hf, hv⟩
            obtain ⟨hw, hu⟩ := (balanced_index_iff hf.pushes (pushes_as hv a.elemWt)).mp hbal
            exact ⟨hfirst.mp hf, hw, fitsAs_iff.mp hu, hvalue.mp hv⟩
          · rintro ⟨hf, hw, hu, hv⟩
            have hf := hfirst.mpr hf
            have hv := hvalue.mpr hv
            exact ⟨(balanced_index_iff hf.pushes (pushes_as hv a.elemWt)).mpr
              ⟨hw, fitsAs_iff.mpr hu⟩, hf, hv⟩
        | some o =>
          simp only at hg ⊢
          have hc₂ : Counted (emitExpr consts _ first).2 := (hkept.expr _ first).2.2 hc₁
          have hg₁ := hkept.trans (hkept.as _ _ _) hg
          have hfirst := soundExpr_iff hroom hc (hkept.trans (hkept.expr _ _) hg₁)
          have hagain := soundExpr_iff hroom hc₁ hg₁
          have hvalue := soundExpr_iff hroom hc₂ (has hg)
          constructor
          · rintro ⟨hbal, hf, hf', hv⟩
            obtain ⟨hw, hu, hop⟩ := (balanced_index_compound_iff hf.pushes hf'.pushes
              (pushes_as hv a.elemWt)).mp hbal
            exact ⟨hfirst.mp hf, hw, fitsAs_iff.mp hu, hagain.mp hf', hvalue.mp hv, hop⟩
          · rintro ⟨hf, hw, hu, hf', hv, hop⟩
            have hf := hfirst.mpr hf
            have hf' := hagain.mpr hf'
            have hv := hvalue.mpr hv
            exact ⟨(balanced_index_compound_iff hf.pushes hf'.pushes (pushes_as hv a.elemWt)).mpr
              ⟨hw, fitsAs_iff.mpr hu, hop⟩, hf, hf', hv⟩
      · simp only [hcount, if_false, false_implies]
        exact iff_of_true ⟨balanced_ops_iff.mpr fun _ => rfl, trivial⟩ trivial
  | name t x =>
    unfold emitAssign InsideAssign FitsAssign at *
    have hc₁ : Counted (wgLocal g x (wtype t)).2 := (hkept.wgLocal g x _).2.2 hc
    cases op with
    | none =>
      simp only at hg ⊢
      have hlocal {u : ValType} := localFits_iff (u := u) hc (hkept.trans (hkept.expr _ _) hg) hroom
      have hvalue := soundExpr_iff hroom hc₁ hg
      constructor
      · rintro ⟨hbal, hv⟩
        exact ⟨hvalue.mp hv, hlocal.mp ((balanced_set_iff hv.pushes).mp hbal)⟩
      · rintro ⟨hv, hl⟩
        have hv := hvalue.mpr hv
        exact ⟨(balanced_set_iff hv.pushes).mpr (hlocal.mpr hl), hv⟩
    | some o =>
      simp only at hg ⊢
      have hlocal {u : ValType} := localFits_iff (u := u) hc (hkept.trans (hkept.as _ _ _) hg) hroom
      have hvalue := soundExpr_iff hroom hc₁ (has hg)
      constructor
      · rintro ⟨hbal, hv⟩
        obtain ⟨hl, hu, hop⟩ := (balanced_compound_iff (pushes_as hv (wtype t))).mp hbal
        exact ⟨hvalue.mp hv, hlocal.mp hl, fitsAs_iff.mp hu, hop⟩
      · rintro ⟨hv, hl, hu, hop⟩
        have hv := hvalue.mpr hv
        exact ⟨(balanced_compound_iff (pushes_as hv (wtype t))).mpr
          ⟨hlocal.mpr hl, fitsAs_iff.mpr hu, hop⟩, hv⟩
  | literal | binary | unary | field | string | other =>
    exact iff_of_true ⟨balanced_ops_iff.mpr fun _ => rfl, trivial⟩ trivial

theorem soundPrint_iff (hroom : gf.localCount ≤ maxLocals) {g : Wg} (e : CallExpr) (hc : Counted g)
    (hg : Grows (emitStmt consts g (.expr e)).2 gf) :
    (Balanced (localTypes gf) (emitStmt consts g (.expr e)).1 ∧
      InsidePrint (localTypes gf) consts g e) ↔ FitsPrint consts g e := by
  rw [emitStmt] at hg ⊢
  unfold InsidePrint FitsPrint
  cases hargs : printArgs e with
  | none => exact iff_of_true ⟨balanced_ops_iff.mpr fun _ => rfl, trivial⟩ trivial
  | some args =>
    simp only [hargs] at hg ⊢
    have hnone {args : List Expr} (h : (emitPrintf consts g args).1 = []) :
        Balanced (localTypes gf) (.ops (emitPrintf consts g args).1) := by
      rw [h]
      exact balanced_ops_iff.mpr fun _ => rfl
    cases args with
    | nil => exact iff_of_true ⟨hnone rfl, trivial⟩ trivial
    | cons fmt args =>
      cases fmt with
      | string t fmt =>
        cases args with
        | nil => exact iff_of_true ⟨balanced_ops_iff.mpr fun _ => rfl, trivial⟩ trivial
        | cons e es =>
          have hc₁ : Counted (logArgs (internString g fmt).2.2 (e :: es).length) := hc
          unfold emitPrintf at hg ⊢
          simp only [reduceCtorEq, if_false] at hg ⊢
          obtain ⟨hiff, hbal⟩ := soundSlots_iff hroom argsBase (e :: es) hc₁ hg
          rw [← hiff, and_iff_right_iff_imp, balanced_ops_iff]
          intro h st
          rw [hbal h]
          rfl
      | literal | name | binary | unary | index | field | other =>
        exact iff_of_true ⟨hnone rfl, trivial⟩ trivial

theorem SoundStmt.balanced {ls : List ValType} {g : Wg} {s : Stmt} (h : SoundStmt ls consts g s) :
    Balanced ls (emitStmt consts g s).1 := by
  cases s with
  | null | block | brk | cont | ret | other => exact h
  | bind | assign | forLoop | ifElse | expr =>
    rw [SoundStmt] at h
    exact h.1

theorem SoundStmts.balanced {ls : List ValType} {g : Wg} {ss : List Stmt}
    (h : SoundStmts ls consts g ss) : Balanced ls (emitStmts consts g ss).1 := by
  induction ss generalizing g with
  | nil => exact fun _ _ => rfl
  | cons s ss ih =>
    rw [SoundStmts] at h
    rw [emitStmts]
    exact balanced_seq h.1.balanced (ih h.2)

mutual

/-- A statement keeps the promise exactly if it fits. -/
theorem soundStmt_iff (hroom : gf.localCount ≤ maxLocals) {g : Wg} (hc : Counted g) : (s : Stmt) →
    Grows (emitStmt consts g s).2 gf →
    (SoundStmt (localTypes gf) consts g s ↔ FitsStmt consts g s)
  | .bind name type value => fun hg => by
    rw [emitStmt] at hg
    rw [SoundStmt, FitsStmt]
    exact soundBind_iff hroom name type value hc hg
  | .assign target op value => fun hg => by
    rw [emitStmt] at hg
    rw [SoundStmt, FitsStmt]
    exact soundAssign_iff hroom op value target hc hg
  | .expr e => fun hg => by
    rw [SoundStmt, FitsStmt]
    exact soundPrint_iff hroom e hc hg
  | .ifElse cond t e => fun hg => by
    rw [SoundStmt, FitsStmt]
    rw [emitStmt] at hg ⊢
    have hkept := kept_grows.toKept
    have hgt := kept_grows.trans (kept_grows.stmts _ e) hg
    have hc₁ : Counted (emitExpr consts g cond).2 := (hkept.expr g cond).2.2 hc
    have hc₂ : Counted (emitStmts consts _ t).2 := (kept_grows.stmts _ t).2.2 hc₁
    have hcond := soundExpr_iff hroom hc (kept_grows.trans (kept_grows.stmts _ t) hgt)
    have ht := soundStmts_iff hroom hc₁ t hgt
    have he := soundStmts_iff hroom hc₂ e hg
    constructor
    · rintro ⟨hbal, hs, hst, hse⟩
      exact ⟨⟨hcond.mp hs, (balanced_if_iff hs.pushes hst.balanced hse.balanced).mp hbal⟩,
        ht.mp hst, he.mp hse⟩
    · rintro ⟨⟨hs, hw⟩, hst, hse⟩
      have hs := hcond.mpr hs
      have hst := ht.mpr hst
      have hse := he.mpr hse
      exact ⟨(balanced_if_iff hs.pushes hst.balanced hse.balanced).mpr hw, hs, hst, hse⟩
  | .forLoop init cond incr body => fun hg => by
    rw [SoundStmt, FitsStmt]
    rw [emitStmt] at hg ⊢
    have hgb := kept_grows.trans (kept_grows.stmt _ incr) hg
    have hgc := kept_grows.trans (kept_grows.stmts _ body) hgb
    have hgi := kept_grows.trans (kept_grows.toKept.cond _ cond) hgc
    have hc₁ : Counted (emitStmt consts g init).2 := (kept_grows.stmt g init).2.2 hc
    have hc₂ : Counted (emitCond consts _ cond).2 := (kept_grows.toKept.cond _ cond).2.2 hc₁
    have hc₃ : Counted (emitStmts consts _ body).2 := (kept_grows.stmts _ body).2.2 hc₂
    have hinit := soundStmt_iff hroom hc init hgi
    have hbody := soundStmts_iff hroom hc₂ body hgb
    have hincr := soundStmt_iff hroom hc₃ incr hg
    cases cond with
    | none =>
      constructor
      · rintro ⟨-, hsi, -, hsb, hsn⟩
        exact ⟨hinit.mp hsi, nofun, hbody.mp hsb, hincr.mp hsn⟩
      · rintro ⟨hsi, -, hsb, hsn⟩
        have hsi := hinit.mpr hsi
        have hsb := hbody.mpr hsb
        have hsn := hincr.mpr hsn
        exact ⟨balanced_loop hsi.balanced hsb.balanced hsn.balanced fun _ _ => rfl, hsi, nofun, hsb, hsn⟩
    | some e =>
      have hcond := soundExpr_iff hroom hc₁ hgc
      constructor
      · rintro ⟨hbal, hsi, hse, hsb, hsn⟩
        have hse := hse e rfl
        have hw : wtype e.resolved = .i32 := by
          cases hw : wtype e.resolved with
          | i32 => rfl
          | f64 => exact absurd hbal (not_balanced_loop hsi.balanced (hw ▸ hse.pushes))
        refine ⟨hinit.mp hsi, fun e' he' => ?_, hbody.mp hsb, hincr.mp hsn⟩
        obtain rfl := Option.some.inj he'
        exact ⟨hcond.mp hse, hw⟩
      · rintro ⟨hsi, hse, hsb, hsn⟩
        obtain ⟨hse, hw⟩ := hse e rfl
        have hsi := hinit.mpr hsi
        have hse := hcond.mpr hse
        have hsb := hbody.mpr hsb
        have hsn := hincr.mpr hsn
        refine ⟨balanced_loop hsi.balanced hsb.balanced hsn.balanced fun _ hdepth =>
          (check_cond_iff hdepth hse.pushes).mpr hw, hsi, fun e' he' => ?_, hsb, hsn⟩
        obtain rfl := Option.some.inj he'
        exact hse
  | .null | .block _ | .brk | .cont | .ret | .other => fun _ => by
    rw [SoundStmt, FitsStmt]
    exact iff_of_true (balanced_ops_iff.mpr fun _ => rfl) trivial

theorem soundStmts_iff (hroom : gf.localCount ≤ maxLocals) {g : Wg} (hc : Counted g) :
    (ss : List Stmt) → Grows (emitStmts consts g ss).2 gf →
    (SoundStmts (localTypes gf) consts g ss ↔ FitsStmts consts g ss)
  | [] => fun _ => by
    rw [SoundStmts, FitsStmts]
  | s :: ss => fun hg => by
    rw [emitStmts] at hg
    rw [SoundStmts, FitsStmts]
    have hc' : Counted (emitStmt consts g s).2 := (kept_grows.stmt g s).2.2 hc
    exact and_congr (soundStmt_iff hroom hc s (kept_grows.trans (kept_grows.stmts _ ss) hg))
      (soundStmts_iff hroom hc' ss hg)

end

end Exact

/-! ## Room for the locals -/

section Room

variable {consts : List (String × Expr)}

def Room (g : Wg) : Prop := g.localCount ≤ maxLocals

theorem room_local {g : Wg} {x : String} {wt u : ValType} (h : LocalFits g x wt u) (hg : Room g) :
    Room (wgLocal g x wt).2 := by
  unfold LocalFits at h
  rw [List.find?_eq_bind_findIdx?_getElem?] at h
  unfold wgLocal
  cases hidx : g.locals.findIdx? (·.name == x) with
  | some i => exact hg
  | none =>
    rw [hidx] at h
    exact h.1

theorem room_exprWith {inline : Emit} {fits : Judge}
    (hinline : ∀ g e, fits g e → Room g → Room (inline g e).2) {g : Wg} {e : Expr}
    (h : FitsWith consts inline fits g e) (hg : Room g) : Room (emitExprWith consts inline g e).2 := by
  induction e generalizing g with
  | literal | unary | string | other => exact hg
  | field t base fieldName _ =>
    unfold emitExprWith
    split <;> exact hg
  | name t x =>
    rw [FitsWith] at h
    rw [emitExprWith]
    cases hfind : consts.find? (·.1 == x) with
    | none =>
      simp only [hfind] at h
      exact room_local h hg
    | some c =>
      simp only [hfind] at h
      exact hinline g c.2 h.1 hg
  | binary t op l r ihl ihr =>
    rw [FitsWith] at h
    rw [emitExprWith]
    cases hop : binopOps op (wtype l.resolved) (wtype r.resolved) with
    | none => exact hg
    | some ops =>
      simp only [hop] at h
      exact ihr h.2.1 (ihl h.1 hg)
  | index t base count first _ ih =>
    rw [FitsWith] at h
    rw [emitExprWith]
    cases hfind : base.name?.bind (arrayFind g) with
    | none => exact hg
    | some a =>
      by_cases hcount : count = 1
      · simp only [hfind, hcount, if_true] at h ⊢
        exact ih h.1 hg
      · simp only [hcount, if_false]
        exact hg

theorem room_expr {g : Wg} {e : Expr} (h : FitsExpr consts g e) (hg : Room g) :
    Room (emitExpr consts g e).2 := by
  have hdepth (n : Nat) : ∀ g e, FitsDepth consts n g e → Room g → Room (emitDepth consts n g e).2 := by
    induction n with
    | zero => exact fun _ _ _ hg => hg
    | succ n ih => exact fun _ _ h hg => room_exprWith ih h hg
  exact hdepth _ g e h hg

theorem room_as {wt : ValType} {g : Wg} {e : Expr} (h : FitsExpr consts g e) (hg : Room g) :
    Room (emitAs consts wt g e).2 := by
  unfold emitAs
  split <;> exact room_expr h hg

theorem room_elements {g : Wg} {a : Array} {k : Nat} {es : List Expr}
    (h : FitsElements consts g a k es) (hg : Room g) : Room (emitElements consts g a k es).2 := by
  induction es generalizing g k with
  | nil => exact hg
  | cons e es ih =>
    rw [FitsElements] at h
    unfold emitElements
    split
    · next hk => exact ih (h hk).2.2 (room_as (h hk).1 hg)
    · exact hg

theorem room_slots {g : Wg} {slot : Nat} {es : List Expr} (h : FitsSlots consts g slot es)
    (hg : Room g) : Room (emitSlots consts g slot es).2 := by
  induction es generalizing g slot with
  | nil => exact hg
  | cons e es ih =>
    have hslot : Room (emitSlot consts g slot e).2 := by
      unfold emitSlot
      split
      · exact hg
      · next hne =>
        split
        · split <;> exact hg
        · next htype => exact room_expr (h.1 (fun t v heq => hne t v heq) htype) hg
    exact ih h.2 hslot

theorem room_bind {g : Wg} {name : String} {type : HirType} {value : Init}
    (h : FitsBind consts g name type value) (hg : Room g) :
    Room (emitBind consts g name type value).2 := by
  unfold FitsBind at h
  unfold emitBind
  cases htype : bindArrayType type value with
  | some t =>
    simp only [htype] at h ⊢
    have hg' : Room (arrayDecl g name t).2 :=
      Nat.le_trans (by unfold arrayDecl; split <;> exact Nat.le_refl _) hg
    generalize arrayDecl g name t = d at *
    obtain ⟨a, g'⟩ := d
    cases a with
    | none => exact hg'
    | some a =>
      cases value with
      | none => exact hg'
      | expr e => exact hg'
      | arrayLiteral t es => exact room_elements h hg'
  | none =>
    simp only [htype] at h ⊢
    cases value with
    | none => exact room_local h hg
    | expr e => exact room_local h.2 (room_expr h.1 hg)
    | arrayLiteral t es =>
      simp only at h ⊢
      rw [h.1]
      exact room_local h.2 hg

theorem room_assign {g : Wg} {op : Option Operator} {value target : Expr}
    (h : FitsAssign consts g op value target) (hg : Room g) :
    Room (emitAssign consts g op value target).2 := by
  cases target with
  | index t base count first =>
    unfold FitsAssign at h
    unfold emitAssign
    cases hfind : base.name?.bind (arrayFind g) with
    | none =>
      simp only [hfind]
      exact hg
    | some a =>
      simp only [hfind] at h ⊢
      by_cases hcount : count = 1
      · simp only [hcount, if_true, forall_const] at h ⊢
        cases op with
        | none => exact room_as h.2.2.2 (room_expr h.1 hg)
        | some o => exact room_as h.2.2.2.2.1 (room_expr h.2.2.2.1 (room_expr h.1 hg))
      · simp only [hcount, if_false]
        exact hg
  | name t x =>
    unfold FitsAssign at h
    unfold emitAssign
    cases op with
    | none => exact room_expr h.1 (room_local h.2 hg)
    | some o => exact room_as h.1 (room_local h.2.1 hg)
  | literal | binary | unary | field | string | other => exact hg

theorem room_print {g : Wg} {e : CallExpr} (h : FitsPrint consts g e) (hg : Room g) :
    Room (emitStmt consts g (.expr e)).2 := by
  unfold FitsPrint at h
  rw [emitStmt]
  cases hargs : printArgs e with
  | none => exact hg
  | some args =>
    simp only [hargs] at h ⊢
    cases args with
    | nil => exact hg
    | cons fmt args =>
      cases fmt with
      | string t fmt =>
        cases args with
        | nil => exact hg
        | cons e es =>
          unfold emitPrintf
          simp only [reduceCtorEq, if_false]
          exact room_slots h hg
      | literal | name | binary | unary | index | field | other => exact hg

mutual

theorem room_stmt {g : Wg} (hg : Room g) : (s : Stmt) → FitsStmt consts g s →
    Room (emitStmt consts g s).2
  | .bind name type value => fun h => by
    rw [FitsStmt] at h
    rw [emitStmt]
    exact room_bind h hg
  | .assign target op value => fun h => by
    rw [FitsStmt] at h
    rw [emitStmt]
    exact room_assign h hg
  | .expr e => fun h => by
    rw [FitsStmt] at h
    exact room_print h hg
  | .ifElse cond t e => fun h => by
    rw [FitsStmt] at h
    rw [emitStmt]
    exact room_stmts (room_stmts (room_expr h.1.1 hg) t h.2.1) e h.2.2
  | .forLoop init cond incr body => fun h => by
    rw [FitsStmt] at h
    rw [emitStmt]
    obtain ⟨hinit, hcond, hbody, hincr⟩ := h
    have hg₁ := room_stmt hg init hinit
    have hg₂ : Room (emitCond consts (emitStmt consts g init).2 cond).2 := by
      cases cond with
      | none => exact hg₁
      | some e => exact room_expr (hcond e rfl).1 hg₁
    exact room_stmt (room_stmts hg₂ body hbody) incr hincr
  | .null | .block _ | .brk | .cont | .ret | .other => fun _ => by
    rw [emitStmt]
    exact hg

theorem room_stmts {g : Wg} (hg : Room g) : (ss : List Stmt) → FitsStmts consts g ss →
    Room (emitStmts consts g ss).2
  | [], _ => by
    rw [emitStmts]
    exact hg
  | s :: ss, h => by
    rw [FitsStmts] at h
    rw [emitStmts]
    exact room_stmts (room_stmt hg s h.1) ss h.2

end

end Room

/-! ## Programs -/

section Programs

variable {consts : List (String × Expr)} {ls : List ValType}

theorem soundStmts_append {g : Wg} {ss ts : List Stmt} :
    SoundStmts ls consts g (ss ++ ts) ↔
      SoundStmts ls consts g ss ∧ SoundStmts ls consts (emitStmts consts g ss).2 ts := by
  induction ss generalizing g with
  | nil => exact (and_iff_right trivial).symm
  | cons s ss ih =>
    rw [List.cons_append, SoundStmts, SoundStmts, ih, emitStmts, and_assoc]

/-- The systems, one behind the other, pass if their statements are balanced. -/
theorem check_systems {g : Wg} {systems : List (String × List Stmt)}
    (h : SoundStmts ls consts g (systems.flatMap (·.2))) (depth : Nat) (st : Stack) :
    check ls depth ((emitSystems consts g systems).1.foldr (fun c cs => .seq c.2 cs) (.ops [])) st =
      some st := by
  induction systems generalizing g st with
  | nil => rfl
  | cons s rest ih =>
    rw [List.flatMap_cons, soundStmts_append] at h
    rw [emitSystems, List.foldr_cons, check, h.1.balanced, Option.bind_some]
    exact ih h.2 st

theorem counted_init : Counted .init := rfl

/-- The backend keeps its promise on the programs that fit, and on no others. -/
theorem meets_iff (p : Program) : Meets p ↔ FitsStmts (constsOf p) .init (entryStmts p) := by
  have hiff (hroom : (generate p).2.localCount ≤ maxLocals) :
      SoundStmts (localTypes (generate p).2) (constsOf p) .init (entryStmts p) ↔
        FitsStmts (constsOf p) .init (entryStmts p) := by
    refine soundStmts_iff hroom counted_init _ ?_
    rw [generate_tables]
    exact kept_grows.refl _
  constructor
  · rintro ⟨hsound, hroom, -⟩
    exact (hiff hroom).mp hsound
  · intro h
    have hroom : (generate p).2.localCount ≤ maxLocals := by
      rw [generate_tables]
      exact room_stmts (Nat.zero_le _) _ h
    have hsound := (hiff hroom).mpr h
    have hcheck := check_systems hsound 1 .empty
    refine ⟨hsound, hroom, ?_⟩
    rw [generate] at hcheck ⊢
    rw [hcheck]
    rfl

/-- `main :: system() { f: float; f = 1.5; }` and its `#run`. -/
def floatLocal : Program :=
  [.kernel "main" .system 0 [.bind "f" .float .none,
      .assign (.name .float "f") none (.literal .float ['1', '.', '5'])], .run (.run "main")]

/-- The local of an uninitialised float is an integer. -/
theorem not_meets : ¬∀ p, Meets p := by
  intro h
  have hvalid := (h floatLocal).2.2
  revert hvalid
  decide

end Programs

end Arche.Codegen.WasmGen.Typing
