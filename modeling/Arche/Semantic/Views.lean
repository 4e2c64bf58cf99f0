import Arche.Lib.Path
import Mathlib.Data.List.Forall2

/-!
# Views of local arrays

A slice is a pointer into storage that may be an array of the running call. The
walk of semantic.c keeps one flag per variable, `borrows_local`, set for a bind
whose right side is a slice or a row of a local, and looks at it where a bare name
is returned; a slice or a row that is returned is judged by its leftmost name.

This module embeds the walk (`analyzeStmt`) and, next to it, the paths of a body
(`Exec`), on which a variable is known by whether it refers to a local array.

* Of the diagnostics those about views are kept, so a body the front end accepts
  is accepted here. What the type checker finds out is part of the tree.
* What a call returns may be a view of whatever its arguments are views of. Other
  values that come from no variable (globals, scalars) are `external`.

1. `noEscape_of_accepted`: no path of an accepted body returns a view of a local
   array or stores one in an out-parameter, as long as none is taken where the
   walk does not look.
2. `not_noEscape`: a typed bind is such a place.
-/

namespace Arche.Semantic.Views

open Arche.Lib

/-! ## The tree -/

/-- The kind of a type: `[N]T`, `[]T`, or any other. -/
inductive TyKind
  | array
  | slice
  | other
deriving DecidableEq, Repr

/-- `type_is_byref_aggregate`. -/
def TyKind.byref (k : TyKind) : Bool := k != .other

/-- The fields of `VariableInfo` the walk reads, without the flag. -/
structure Decl where
  name : String
  kind : TyKind
  isParam : Bool := false
  isOwn : Bool := false
  isOutPlace : Bool := false
deriving DecidableEq, Repr

/-- `index k b` is an element of `b` of kind `k`: a row of a matrix if `k` is no `other`. `literal` is
an array literal, `call k args` has a result of kind `k`. -/
inductive Expr
  | external
  | literal
  | name (x : String)
  | slice (base : Expr)
  | index (k : TyKind) (base : Expr)
  | move (e : Expr)
  | copy (k : TyKind) (e : Expr)
  | paren (e : Expr)
  | call (k : TyKind) (args : List Expr)

/-- Statements. `typed` says whether a bind of `x` has a type of its own; without a value it declares
storage. A target of a multiple bind is a `typed` bind of the call. `other` is a statement that
neither declares nor repoints a variable. -/
inductive Stmt
  | bind (x : String) (k : TyKind) (typed : Bool) (value : Option Expr)
  | assign (x : String) (value : Expr)
  | other
  | forC (init : List Stmt) (tested : Bool) (incr body : List Stmt)
  | forever (body : List Stmt)
  | ite (thn els : List Stmt)
  | block (body : List Stmt)
  | matchOn (arms : List (List Stmt))
  | ret (es : List Expr)
  | brk
  | cont

/-- The leftmost name of a chain of slices and indices (`sv_name_expr_dup`). -/
def Expr.leftmost : Expr → Option String
  | .name x => some x
  | .slice b | .index _ b => b.leftmost
  | .external | .literal | .move _ | .copy _ _ | .paren _ | .call _ _ => none

/-- A slice or an index expression. -/
def Expr.isPostfix : Expr → Bool
  | .slice _ | .index _ _ => true
  | _ => false

/-- A name, in parentheses or not: what `copy` duplicates. -/
def Expr.isName : Expr → Bool
  | .name _ => true
  | .paren e => e.isName
  | _ => false

/-! ## Variables and their flag -/

/-- A variable with its flag: `borrows_local` in the walk, "refers to a local array" on a path. -/
structure Var where
  decl : Decl
  flag : Bool
deriving DecidableEq, Repr

/-- A local variable of the body. -/
def Var.local (x : String) (k : TyKind) (flag : Bool) : Var := ⟨{ name := x, kind := k }, flag⟩

/-- Newest first. -/
abbrev Vars := List Var

namespace Vars

/-- `find_variable`. -/
def find (x : String) (vs : Vars) : Option Var := vs.find? fun v => v.decl.name == x

def setFlag (x : String) (b : Bool) : Vars → Vars
  | [] => []
  | v :: vs => if v.decl.name == x then { v with flag := b } :: vs else v :: setFlag x b vs

theorem find_cons_of_eq {x : String} {v : Var} (vs : Vars) (h : v.decl.name = x) :
    find x (v :: vs) = some v :=
  List.find?_cons_of_pos (beq_iff_eq.mpr h)

theorem find_cons_of_ne {x : String} {v : Var} (vs : Vars) (h : v.decl.name ≠ x) :
    find x (v :: vs) = find x vs :=
  List.find?_cons_of_neg fun hb => h (beq_iff_eq.mp hb)

end Vars

/-- What was declared since `before` goes out of scope. -/
def cutBack (before now : Vars) : Vars := now.drop (now.length - before.length)

/-! ## The walk -/

inductive Diag
  | sliceRepoint (x : String)
  | cannotMutateBorrowed (x : String)
  | cannotMutateBorrowedLocal (x : String)
  | returnLocalArray (x : String)
  | returnSliceOfLocal (x : String)
  | returnArrayLiteral
deriving DecidableEq, Repr

/-- The variable is a local array or slice. -/
def Var.freshLocal (v : Var) : Bool := !v.decl.isParam && v.decl.kind.byref

/-- The flag of a variable `x` bound to `value`. The base is looked up after `x` was added, when only
an array has its type yet. -/
def taint (vs : Vars) (x : String) (k : TyKind) (typed : Bool) (value : Option Expr) : Bool :=
  let vs' := Var.local x (if k == .array then .array else .other) false :: vs
  match typed, value with
  | false, some e =>
    e.isPostfix && (e.leftmost.bind (Vars.find · vs')).any fun v => v.freshLocal || v.flag
  | _, _ => false

/-- The checks of an assignment to the name `x`. -/
def checkAssign (vs : Vars) (x : String) : List Diag :=
  match vs.find x with
  | none => []
  | some v =>
    (if !v.decl.isOutPlace && !v.decl.isParam && v.decl.kind == .slice then [.sliceRepoint x]
      else []) ++
    (if !v.decl.isOwn && !v.decl.isOutPlace && v.decl.isParam && v.decl.kind.byref then
      [.cannotMutateBorrowed x]
    else if !v.decl.isOwn && !v.decl.isOutPlace && !v.decl.isParam && v.flag then
      [.cannotMutateBorrowedLocal x]
    else [])

/-- The checks of one returned value. `first` is the kind of the first return type, whichever value
is looked at. -/
def checkReturn (first : TyKind) (vs : Vars) : Expr → List Diag
  | .name x =>
    match vs.find x with
    | none => []
    | some v =>
      if v.decl.kind == .array && !v.decl.isParam then [.returnLocalArray x]
      else if v.flag then [.returnSliceOfLocal x]
      else []
  | .literal => [.returnArrayLiteral]
  | e =>
    if e.isPostfix && first.byref then
      match e.leftmost.bind (Vars.find · vs) with
      | none => []
      | some v => if v.freshLocal then [.returnSliceOfLocal v.decl.name] else []
    else []

section Walk

variable (first : TyKind)

mutual

/-- `analyze_statement`. The increment of a `for` is looked at before its body. -/
def analyzeStmt (vs : Vars) : Stmt → Vars × List Diag
  | .bind x k typed value => (Var.local x k (taint vs x k typed value) :: vs, [])
  | .assign x _ => (vs, checkAssign vs x)
  | .other | .brk | .cont => (vs, [])
  | .forC init _ incr body =>
    let (v₁, d₁) := analyzeStmts vs init
    let (v₂, d₂) := analyzeStmts v₁ incr
    let (v₃, d₃) := analyzeStmts v₂ body
    (cutBack vs v₃, d₁ ++ d₂ ++ d₃)
  | .forever body | .block body =>
    let (v₁, d₁) := analyzeStmts vs body
    (cutBack vs v₁, d₁)
  | .ite thn els =>
    let (v₁, d₁) := analyzeStmts vs thn
    let (v₂, d₂) := analyzeStmts (cutBack vs v₁) els
    (cutBack vs v₂, d₁ ++ d₂)
  | .matchOn arms => analyzeArms vs arms
  | .ret es => (vs, es.flatMap (checkReturn first vs))

def analyzeStmts (vs : Vars) : List Stmt → Vars × List Diag
  | [] => (vs, [])
  | s :: ss =>
    let (v₁, d₁) := analyzeStmt vs s
    let (v₂, d₂) := analyzeStmts v₁ ss
    (v₂, d₁ ++ d₂)

def analyzeArms (vs : Vars) : List (List Stmt) → Vars × List Diag
  | [] => (vs, [])
  | arm :: arms =>
    let (v₁, d₁) := analyzeStmts vs arm
    let (v₂, d₂) := analyzeArms (cutBack vs v₁) arms
    (v₂, d₁ ++ d₂)

end

end Walk

/-- The parameters and out-parameters of a func, with their flag clear. -/
def atEntry (params : List Decl) : Vars :=
  (params.map fun d => ⟨{ d with isParam := true }, false⟩).reverse

/-- The front end accepts the body of a func with return types of kinds `rets`. -/
def Accepted (params : List Decl) (rets : List TyKind) (body : List Stmt) : Prop :=
  (analyzeStmts (rets.headD .other) (atEntry params) body).2 = []

/-! ## Paths -/

/-- An event of a path: `escape b`, a value is returned or stored in an out-parameter; `unwatched b`,
a value is taken where the walk does not look; in both `b` says whether the value refers to a local
array. `incr b`: a `for` begins, and `b` says whether its increment declares a variable. -/
inductive Event
  | escape (isLocal : Bool)
  | unwatched (isLocal : Bool)
  | incr (declares : Bool)
  | again
deriving DecidableEq, Repr

mutual

/-- The value of the expression refers to a local array of the call. `copy` duplicates a named array
into a buffer of the call, and passes any other value on. -/
def Expr.isLocal (r : Vars) : Expr → Bool
  | .external | .literal => false
  | .name x => (r.find x).any Var.flag
  | .slice b => b.isLocal r
  | .index k b => k.byref && b.isLocal r
  | .move e | .paren e => e.isLocal r
  | .copy k e => (k == .array && e.isName) || e.isLocal r
  | .call k args => k.byref && anyLocal r args

def anyLocal (r : Vars) : List Expr → Bool
  | [] => false
  | e :: es => e.isLocal r || anyLocal r es

end

/-- The bind reserves storage of the call. -/
def reserves (typed : Bool) : Option Expr → Bool
  | none => true
  | some .literal => typed
  | some _ => false

/-- A new variable refers to a local array. -/
def newFlag (r : Vars) (k : TyKind) (typed : Bool) (value : Option Expr) : Bool :=
  (k == .array && reserves typed value) || (k.byref && value.any (Expr.isLocal r))

/-- The walk sees what the bind takes: a local array is known by its type, and an untyped bind of a
slice or row by its leftmost name, if that is not the name just added. -/
def watchedBind (x : String) (k : TyKind) (typed : Bool) (value : Option Expr) : Bool :=
  k == .array || (!typed && value.any fun e =>
    e.isPostfix && e.leftmost.isSome && e.leftmost != some x)

/-- The walk sees what is returned. -/
def watchedReturn (first : TyKind) : Expr → Bool
  | .name _ => true
  | e => e.isPostfix && e.leftmost.isSome && first.byref

def bindVar (x : String) (k : TyKind) (typed : Bool) (value : Option Expr) : Path Vars Event :=
  .act fun r =>
    (Var.local x k (newFlag r k typed value) :: r,
      if watchedBind x k typed value then [] else [.unwatched (newFlag r k typed value)])

/-- An assignment fills an array and repoints a slice. -/
def assignVar (x : String) (value : Expr) : Path Vars Event := .act fun r =>
  match r.find x with
  | none => (r, [])
  | some v =>
    if v.decl.kind == .slice then
      (r.setFlag x (value.isLocal r),
        (if v.decl.isParam || v.decl.isOutPlace then [.unwatched (value.isLocal r)] else []) ++
        (if v.decl.isOutPlace then [.escape (value.isLocal r)] else []))
    else (r, [])

/-- The values of a `return`, one after the other. -/
def returnValues (first : TyKind) : List Expr → Path Vars Event
  | [] => .leave .returned
  | e :: es =>
    .seq (.act fun r => (r, (if watchedReturn first e then [] else [.unwatched (e.isLocal r)]) ++
      [.escape (e.isLocal r)])) (returnValues first es)

/-- Some statement of the list is a bind. -/
def declares (ss : List Stmt) : Bool :=
  ss.any fun s => match s with
    | .bind _ _ _ _ => true
    | _ => false

section Paths

variable (first : TyKind)

mutual

/-- The paths of a statement. The variables of a loop's body live for one round. -/
def Exec : Stmt → Path Vars Event
  | .bind x k typed value => bindVar x k typed value
  | .assign x value => assignVar x value
  | .other => .skip
  | .forC init tested incr body =>
    .seq (.emit fun _ => .incr (declares incr))
      (.within cutBack (.seq (ExecAll init)
        (.Loop ⟨tested, false⟩ cutBack (fun _ _ => .again) (fun _ => .skip) (ExecAll body)
          (ExecAll incr))))
  | .forever body =>
    .Loop ⟨false, false⟩ cutBack (fun _ _ => .again) (fun _ => .skip) (ExecAll body) .skip
  | .ite thn els => .choice (.within cutBack (ExecAll thn)) (.within cutBack (ExecAll els))
  | .block body => .within cutBack (ExecAll body)
  | .matchOn arms => ExecArm arms
  | .ret es => returnValues first es
  | .brk => .leave .broke
  | .cont => .leave .continued

def ExecAll : List Stmt → Path Vars Event
  | [] => .skip
  | s :: ss => .seq (Exec s) (ExecAll ss)

def ExecArm : List (List Stmt) → Path Vars Event
  | [] => .skip
  | arm :: arms => .choice (.within cutBack (ExecAll arm)) (ExecArm arms)

end

end Paths

/-- The paths of the body of a func. -/
def Runs (params : List Decl) (rets : List TyKind) (body : List Stmt) (t : List Event) : Prop :=
  ∃ o r, ExecAll (rets.headD .other) body (atEntry params) o r t

/-- No view of a local array leaves the call. -/
def NoEscape (t : List Event) : Prop := .escape true ∉ t

/-- No view of a local array is taken where the walk does not look, and no increment declares a
variable. -/
def Watched (t : List Event) : Prop := .unwatched true ∉ t ∧ .incr true ∉ t

/-! ## What the walk knows of a path -/

/-- `r` on the path refers to a local array only if the walk can tell from `w`. -/
structure Fits (w r : Var) : Prop where
  decl : r.decl = w.decl
  known : r.flag = true →
    w.decl.isParam = false ∧ (w.decl.kind = .array ∨ (w.decl.kind = .slice ∧ w.flag = true))

theorem Fits.freshLocal {w r : Var} (h : Fits w r) (hr : r.flag = true) :
    w.freshLocal = true := by
  obtain ⟨hp, hk⟩ := h.known hr
  rw [Var.freshLocal, hp]
  rcases hk with hk | ⟨hk, _⟩
  · rw [hk]
    rfl
  · rw [hk]
    rfl

/-- Variable by variable. -/
abbrev Rel (vs r : Vars) : Prop := List.Forall₂ Fits vs r

/-- `vs` fits what `r` was before some declarations. -/
def Under (vs r : Vars) : Prop := ∃ ext r', r = ext ++ r' ∧ Rel vs r'

theorem Rel.under {vs r : Vars} (h : Rel vs r) : Under vs r := ⟨[], r, rfl, h⟩

theorem Rel.under_append {ext vs r : Vars} (h : Rel (ext ++ vs) r) : Under vs r := by
  refine ⟨r.take ext.length, r.drop ext.length, (List.take_append_drop _ _).symm, ?_⟩
  have hd := List.forall₂_drop ext.length h
  rwa [List.drop_left] at hd

theorem Under.of_append {ext vs r : Vars} (h : Under (ext ++ vs) r) : Under vs r := by
  obtain ⟨a, r', rfl, h⟩ := h
  obtain ⟨b, r'', rfl, h'⟩ := h.under_append
  exact ⟨a ++ b, r'', (List.append_assoc _ _ _).symm, h'⟩

/-- What a scope leaves behind. -/
theorem cutBack_rel {vs s s₁ : Vars} (hs : Rel vs s) (h : Under vs s₁) :
    Rel vs (cutBack s s₁) := by
  obtain ⟨ext, r, rfl, hr⟩ := h
  have hlen : (ext ++ r).length - s.length = ext.length := by
    rw [List.length_append, ← hs.length_eq, hr.length_eq, Nat.add_sub_cancel]
  rw [cutBack, hlen, List.drop_left]
  exact hr

theorem Rel.find {vs r : Vars} (h : Rel vs r) (x : String) :
    (vs.find x = none ∧ r.find x = none) ∨
      ∃ w v, vs.find x = some w ∧ r.find x = some v ∧ Fits w v := by
  induction h with
  | nil => exact .inl ⟨rfl, rfl⟩
  | @cons w v vs r hv _ ih =>
    by_cases hx : w.decl.name = x
    · exact .inr ⟨w, v, Vars.find_cons_of_eq vs hx, Vars.find_cons_of_eq r (hv.decl ▸ hx), hv⟩
    · rw [Vars.find_cons_of_ne vs hx, Vars.find_cons_of_ne r (hv.decl ▸ hx)]
      exact ih

/-- A variable that was repointed away from every local array. -/
theorem Rel.setFlag {vs r : Vars} (h : Rel vs r) (x : String) : Rel vs (r.setFlag x false) := by
  induction h with
  | nil => exact .nil
  | @cons w v vs r hv hr ih =>
    rw [Vars.setFlag]
    split
    · exact .cons ⟨hv.decl, fun hf => absurd hf Bool.false_ne_true⟩ hr
    · exact .cons hv ih

/-- A value that refers to a local array and has a leftmost name is known to the walk. -/
theorem isLocal_leftmost {vs r : Vars} (h : Rel vs r) {x : String} :
    ∀ e : Expr, e.leftmost = some x → e.isLocal r = true →
      ∃ w v, vs.find x = some w ∧ v.flag = true ∧ Fits w v
  | .name y, hx, hl => by
    cases Option.some.inj hx
    rw [Expr.isLocal] at hl
    rcases h.find x with ⟨_, hr⟩ | ⟨w, v, hw, hr, hv⟩
    · rw [hr] at hl
      exact absurd hl Bool.false_ne_true
    · rw [hr] at hl
      exact ⟨w, v, hw, hl, hv⟩
  | .slice b, hx, hl => by
    rw [Expr.isLocal] at hl
    exact isLocal_leftmost h b hx hl
  | .index k b, hx, hl => by
    rw [Expr.isLocal, Bool.and_eq_true] at hl
    exact isLocal_leftmost h b hx hl.2

/-! ### One statement -/

/-- What is asked of the events of a path. -/
def Admitted (e : Event) : Prop := e ≠ .unwatched true ∧ e ≠ .incr true

def Kept (e : Event) : Prop := e ≠ .escape true

/-- The walk from `vs` to `vs'` covers the paths of `p`. -/
def Sound (vs vs' : Vars) (p : Path Vars Event) : Prop :=
  Triple Admitted Kept (Rel vs) p (Rel vs') (Under vs)

theorem newFlag_byref {r : Vars} {k : TyKind} {typed : Bool} {value : Option Expr}
    (h : newFlag r k typed value = true) (hk : k ≠ .array) :
    k = .slice ∧ ∃ e, value = some e ∧ e.isLocal r = true := by
  have hk' : (k == TyKind.array) = false := beq_false_of_ne hk
  rw [newFlag, hk', Bool.false_and, Bool.false_or, Bool.and_eq_true] at h
  obtain ⟨href, hl⟩ := h
  obtain ⟨e, he, hl⟩ := (Option.any_eq_true _ _).mp hl
  refine ⟨?_, e, he, hl⟩
  cases k with
  | array => exact absurd rfl hk
  | slice => rfl
  | other => exact absurd href Bool.false_ne_true

/-- The walk flags a slice it sees taken from a local array. -/
theorem taint_of_watched {vs r : Vars} (h : Rel vs r) {x : String} {k : TyKind} {typed : Bool}
    {e : Expr} (hk : k ≠ .array) (hw : watchedBind x k typed (some e) = true)
    (hl : e.isLocal r = true) : taint vs x k typed (some e) = true := by
  have hk' : (k == TyKind.array) = false := beq_false_of_ne hk
  rw [watchedBind, hk', Bool.false_or, Bool.and_eq_true, Bool.not_eq_true'] at hw
  obtain ⟨rfl, hw⟩ := hw
  rw [Option.any_some, Bool.and_eq_true, Bool.and_eq_true] at hw
  obtain ⟨⟨hpost, hsome⟩, hne⟩ := hw
  obtain ⟨y, hy⟩ := Option.isSome_iff_exists.mp hsome
  obtain ⟨w, v, hf, hv, hfit⟩ := isLocal_leftmost h e hy hl
  have hxy : x ≠ y := by
    rintro rfl
    rw [hy, bne_self_eq_false] at hne
    exact Bool.false_ne_true hne
  rw [taint, hpost, hy, Bool.true_and]
  show (Vars.find y (_ :: vs)).any _ = true
  rw [Vars.find_cons_of_ne vs hxy, hf, Option.any_some, hfit.freshLocal hv, Bool.true_or]

theorem bindVar_sound (vs : Vars) (x : String) (k : TyKind) (typed : Bool) (value : Option Expr) :
    Sound vs (Var.local x k (taint vs x k typed value) :: vs) (bindVar x k typed value) := by
  refine Triple.act fun r hr ht => ⟨?_, .cons ⟨rfl, fun hf => ⟨rfl, ?_⟩⟩ hr⟩
  · intro e he
    show e ≠ _
    rintro rfl
    change _ ∈ ite _ _ _ at he
    split at he
    · exact absurd he List.not_mem_nil
    · exact absurd (List.mem_singleton.mp he) Event.noConfusion
  · by_cases hk : k = .array
    · exact .inl hk
    · obtain ⟨hs, e, rfl, hl⟩ := newFlag_byref hf hk
      refine .inr ⟨hs, taint_of_watched hr hk ?_ hl⟩
      -- an unwatched view of a local array is not admitted
      cases hw : watchedBind x k typed (some e) with
      | true => rfl
      | false =>
        have hf' : newFlag r k typed (some e) = true := hf
        have hmem := ht (.unwatched true) (by
          show _ ∈ ite _ _ _
          rw [hw, hf']
          exact List.mem_cons_self)
        exact absurd rfl hmem.1

theorem assignVar_sound {vs : Vars} {x : String} (value : Expr) (hd : checkAssign vs x = []) :
    Sound vs vs (assignVar x value) := by
  refine Triple.act fun r hr ht => ?_
  rcases hr.find x with ⟨_, hnone⟩ | ⟨w, v, hw, hv, hfit⟩
  · simp only [hnone]
    exact ⟨fun _ he => absurd he List.not_mem_nil, hr⟩
  · simp only [hv] at ht ⊢
    by_cases hk : v.decl.kind = .slice
    · rw [if_pos (beq_iff_eq.mpr hk)] at ht ⊢
      -- the walk rejects a local slice on the left
      have hplace : (v.decl.isParam || v.decl.isOutPlace) = true := by
        simp only [checkAssign, hw, ← hfit.decl, hk] at hd
        rw [← Bool.not_eq_false, Bool.or_eq_false_iff]
        rintro ⟨hp, ho⟩
        rw [hp, ho] at hd
        exact absurd hd (List.cons_ne_nil _ _)
      rw [if_pos hplace] at ht ⊢
      have hl : value.isLocal r = false := by
        rw [← Bool.not_eq_true]
        intro hl
        rw [hl] at ht
        exact (ht _ List.mem_cons_self).1 rfl
      rw [hl]
      refine ⟨fun e he => ?_, hr.setFlag x⟩
      rintro rfl
      split at he <;> simp at he
    · rw [if_neg (fun h => hk (beq_iff_eq.mp h))]
      exact ⟨fun _ he => absurd he List.not_mem_nil, hr⟩

theorem checkReturn_name {vs : Vars} {first : TyKind} {x : String} {w v : Var}
    (hw : vs.find x = some w) (hfit : Fits w v) (hv : v.flag = true) :
    checkReturn first vs (.name x) ≠ [] := by
  obtain ⟨hp, hk⟩ := hfit.known hv
  simp only [checkReturn, hw]
  rcases hk with hk | ⟨hk, hflag⟩
  · rw [if_pos (by rw [hk, hp]; rfl)]
    exact List.cons_ne_nil _ _
  · rw [if_neg (by rw [hk]; exact Bool.false_ne_true), if_pos hflag]
    exact List.cons_ne_nil _ _

theorem checkReturn_postfix {vs : Vars} {first : TyKind} {e : Expr} {x : String} {w : Var}
    (he : e.isPostfix = true) (hfirst : first.byref = true) (hx : e.leftmost = some x)
    (hw : vs.find x = some w) (hfresh : w.freshLocal = true) : checkReturn first vs e ≠ [] := by
  have h : checkReturn first vs e = [.returnSliceOfLocal w.decl.name] := by
    unfold checkReturn
    split
    · exact absurd he Bool.false_ne_true
    · exact absurd he Bool.false_ne_true
    · rw [he, hfirst, hx, Bool.true_and, if_pos rfl, Option.bind_some, hw]
      exact if_pos hfresh
  rw [h]
  exact List.cons_ne_nil _ _

/-- The walk rejects a view of a local array where it sees one returned. -/
theorem checkReturn_of_watched {vs r : Vars} (h : Rel vs r) {first : TyKind} {e : Expr}
    (hw : watchedReturn first e = true) (hl : e.isLocal r = true) :
    checkReturn first vs e ≠ [] := by
  unfold watchedReturn at hw
  split at hw
  · next x =>
    obtain ⟨w, v, hf, hv, hfit⟩ := isLocal_leftmost h (.name x) rfl hl
    exact checkReturn_name hf hfit hv
  · rw [Bool.and_eq_true, Bool.and_eq_true] at hw
    obtain ⟨⟨he, hsome⟩, hfirst⟩ := hw
    obtain ⟨x, hx⟩ := Option.isSome_iff_exists.mp hsome
    obtain ⟨w, v, hf, hv, hfit⟩ := isLocal_leftmost h e hx hl
    exact checkReturn_postfix he hfirst hx hf (hfit.freshLocal hv)

theorem returnValues_sound {vs : Vars} {first : TyKind} {es : List Expr} {N : Vars → Prop}
    (hd : ∀ e ∈ es, checkReturn first vs e = []) :
    Triple Admitted Kept (Rel vs) (returnValues first es) N (Under vs) := by
  induction es with
  | nil => exact Triple.leave fun _ _ => trivial
  | cons e es ih =>
    refine Triple.seq (Q := Rel vs) (Triple.act fun r hr ht => ⟨?_, hr⟩)
      (ih fun e he => hd e (List.mem_cons_of_mem _ he))
    have hl : e.isLocal r = false := by
      rw [← Bool.not_eq_true]
      intro hl
      cases hw : watchedReturn first e with
      | true => exact checkReturn_of_watched hr hw hl (hd e List.mem_cons_self)
      | false =>
        have hadm := ht (.unwatched true) (by
          show _ ∈ ite _ _ _ ++ _
          rw [hw, hl]
          exact List.mem_cons_self)
        exact hadm.1 rfl
    rintro _ he rfl
    simp only [hl] at he
    split at he <;> simp at he

/-! ### Whole bodies -/

theorem cutBack_of_suffix {vs now : Vars} (h : vs <:+ now) : cutBack vs now = vs := by
  obtain ⟨ext, rfl⟩ := h
  rw [cutBack, List.length_append, Nat.add_sub_cancel, List.drop_left]

/-- What the statement declares in the scope it stands in. -/
def bound (vs : Vars) : Stmt → Vars
  | .bind x k typed value => [Var.local x k (taint vs x k typed value)]
  | _ => []

section Bodies

variable (first : TyKind)

mutual

theorem analyzeStmt_vars (vs : Vars) (s : Stmt) :
    (analyzeStmt first vs s).1 = bound vs s ++ vs := by
  cases s with
  | forC init tested incr body =>
    rw [analyzeStmt]
    exact cutBack_of_suffix (((analyzeStmts_suffix vs init).trans (analyzeStmts_suffix _ incr)).trans
      (analyzeStmts_suffix _ body))
  | forever body =>
    rw [analyzeStmt]
    exact cutBack_of_suffix (analyzeStmts_suffix vs body)
  | block body =>
    rw [analyzeStmt]
    exact cutBack_of_suffix (analyzeStmts_suffix vs body)
  | ite thn els =>
    rw [analyzeStmt]
    show cutBack vs (analyzeStmts first (cutBack vs (analyzeStmts first vs thn).1) els).1 = vs
    rw [cutBack_of_suffix (analyzeStmts_suffix vs thn)]
    exact cutBack_of_suffix (analyzeStmts_suffix vs els)
  | matchOn arms =>
    rw [analyzeStmt]
    exact analyzeArms_vars vs arms
  | bind x k typed value => rfl
  | assign x value => rfl
  | other => rfl
  | ret es => rfl
  | brk => rfl
  | cont => rfl

theorem analyzeStmts_suffix (vs : Vars) (ss : List Stmt) : vs <:+ (analyzeStmts first vs ss).1 := by
  cases ss with
  | nil => exact List.suffix_refl vs
  | cons s ss =>
    have hs : vs <:+ (analyzeStmt first vs s).1 := by
      rw [analyzeStmt_vars vs s]
      exact List.suffix_append _ _
    rw [analyzeStmts]
    exact hs.trans (analyzeStmts_suffix _ ss)

theorem analyzeArms_vars (vs : Vars) (arms : List (List Stmt)) :
    (analyzeArms first vs arms).1 = vs := by
  cases arms with
  | nil => rfl
  | cons arm arms =>
    rw [analyzeArms]
    show (analyzeArms first (cutBack vs (analyzeStmts first vs arm).1) arms).1 = vs
    rw [cutBack_of_suffix (analyzeStmts_suffix vs arm)]
    exact analyzeArms_vars vs arms

end

/-- An increment without a bind leaves the variables as they were. -/
theorem analyzeStmts_vars {ss : List Stmt} (h : declares ss = false) (vs : Vars) :
    (analyzeStmts first vs ss).1 = vs := by
  induction ss with
  | nil => rfl
  | cons s ss ih =>
    rw [declares, List.any_cons, Bool.or_eq_false_iff] at h
    have hs : bound vs s = [] := by
      cases s with
      | bind x k typed value => exact absurd h.1 Bool.noConfusion
      | _ => rfl
    rw [analyzeStmts]
    show (analyzeStmts first (analyzeStmt first vs s).1 ss).1 = vs
    rw [analyzeStmt_vars, hs]
    exact ih h.2

end Bodies

namespace Sound

variable {vs vs₁ vs₂ : Vars} {p q : Path Vars Event}

theorem skip (vs : Vars) : Sound vs vs .skip := Triple.skip fun _ h => h

theorem seq (hp : Sound vs vs₁ p) (hq : Sound vs₁ vs₂ q) (h : vs <:+ vs₁) :
    Sound vs vs₂ (.seq p q) := by
  obtain ⟨ext, rfl⟩ := h
  exact Triple.seq hp (Triple.conseq hq (fun _ h => h) (fun _ h => h) fun _ h => h.of_append)

theorem choice (hp : Sound vs vs₁ p) (hq : Sound vs vs₁ q) : Sound vs vs₁ (.choice p q) :=
  Triple.choice hp hq

/-- A scope of its own. -/
theorem within (hp : Sound vs vs₁ p) (h : vs <:+ vs₁) : Sound vs vs (.within cutBack p) := by
  obtain ⟨ext, rfl⟩ := h
  refine Triple.within hp ?_ ?_
  · intro s s₁ hs h₁
    exact cutBack_rel hs h₁.under_append
  · intro s s₁ hs h₁
    exact (cutBack_rel hs h₁).under

/-- A loop whose increment declares nothing: every round begins with the same variables. -/
theorem loop {k : LoopForm} {body incr : Path Vars Event} (hbody : Sound vs vs₁ body)
    (hincr : Sound vs vs incr) (h : vs <:+ vs₁) :
    Sound vs vs (.Loop k cutBack (fun _ _ => .again) (fun _ => .skip) body incr) := by
  obtain ⟨ext, rfl⟩ := h
  refine Triple.loopInv (fun _ _ => Event.noConfusion) (skip vs) (skip vs) hbody hincr ?_
    (fun _ h => h) (fun _ h => h) (fun _ h => h.under)
  rintro s s' hs (h | h)
  · exact cutBack_rel hs h.under_append
  · exact cutBack_rel hs h

end Sound

section Bodies

variable {first : TyKind}

mutual

theorem exec_sound (vs : Vars) (s : Stmt) (hd : (analyzeStmt first vs s).2 = []) :
    Sound vs (analyzeStmt first vs s).1 (Exec first s) := by
  rw [analyzeStmt_vars]
  cases s with
  | bind x k typed value => exact bindVar_sound vs x k typed value
  | assign x value => exact assignVar_sound value hd
  | other => exact .skip vs
  | forC init tested incr body =>
    rw [analyzeStmt] at hd
    obtain ⟨hd, hd₃⟩ := List.append_eq_nil_iff.mp hd
    obtain ⟨hd₁, hd₂⟩ := List.append_eq_nil_iff.mp hd
    refine Triple.seq (Q := fun r => declares incr = false ∧ Rel vs r)
      (Triple.emit (fun _ _ => Event.noConfusion) fun r hr hadm => ⟨?_, hr⟩)
      (Triple.assume fun hincr => ?_)
    · rw [← Bool.not_eq_true]
      intro h
      exact hadm.2 (congrArg _ h)
    · -- the walk has met the increment before the body, and it declared nothing
      have hflat := analyzeStmts_vars first hincr (analyzeStmts first vs init).1
      have hi := execAll_sound _ incr hd₂
      rw [hflat] at hi hd₃
      have hb := execAll_sound _ body hd₃
      have hinit := analyzeStmts_suffix first vs init
      exact Sound.within (.seq (execAll_sound vs init hd₁)
        (.loop hb hi (analyzeStmts_suffix first _ body)) hinit) hinit
  | forever body =>
    rw [analyzeStmt] at hd
    exact .loop (execAll_sound vs body hd) (.skip vs) (analyzeStmts_suffix first vs body)
  | ite thn els =>
    rw [analyzeStmt] at hd
    obtain ⟨hd₁, hd₂⟩ := List.append_eq_nil_iff.mp hd
    rw [cutBack_of_suffix (analyzeStmts_suffix first vs thn)] at hd₂
    exact .choice (.within (execAll_sound vs thn hd₁) (analyzeStmts_suffix first vs thn))
      (.within (execAll_sound vs els hd₂) (analyzeStmts_suffix first vs els))
  | block body =>
    rw [analyzeStmt] at hd
    exact .within (execAll_sound vs body hd) (analyzeStmts_suffix first vs body)
  | matchOn arms =>
    rw [analyzeStmt] at hd
    exact execArm_sound vs arms hd
  | ret es => exact returnValues_sound (List.flatMap_eq_nil_iff.mp hd)
  | brk => exact Triple.leave fun _ hr => hr.under
  | cont => exact Triple.leave fun _ hr => hr.under

theorem execAll_sound (vs : Vars) (ss : List Stmt) (hd : (analyzeStmts first vs ss).2 = []) :
    Sound vs (analyzeStmts first vs ss).1 (ExecAll first ss) := by
  cases ss with
  | nil => exact .skip vs
  | cons s ss =>
    rw [analyzeStmts] at hd ⊢
    obtain ⟨hd₁, hd₂⟩ := List.append_eq_nil_iff.mp hd
    refine .seq (exec_sound vs s hd₁) (execAll_sound _ ss hd₂) ?_
    rw [analyzeStmt_vars]
    exact List.suffix_append _ _

theorem execArm_sound (vs : Vars) (arms : List (List Stmt))
    (hd : (analyzeArms first vs arms).2 = []) : Sound vs vs (ExecArm first arms) := by
  cases arms with
  | nil => exact .skip vs
  | cons arm arms =>
    rw [analyzeArms] at hd
    obtain ⟨hd₁, hd₂⟩ := List.append_eq_nil_iff.mp hd
    rw [cutBack_of_suffix (analyzeStmts_suffix first vs arm)] at hd₂
    exact .choice (.within (execAll_sound vs arm hd₁) (analyzeStmts_suffix first vs arm))
      (execArm_sound vs arms hd₂)

end

end Bodies

theorem atEntry_rel (params : List Decl) : Rel (atEntry params) (atEntry params) := by
  rw [Rel, List.forall₂_same]
  intro v hv
  obtain ⟨d, _, rfl⟩ := List.mem_map.mp (List.mem_reverse.mp hv)
  exact ⟨rfl, fun h => absurd h Bool.false_ne_true⟩

/-- No path of an accepted body lets a view of a local array out of the call, unless one is taken
where the walk does not look. -/
theorem noEscape_of_accepted {params : List Decl} {rets : List TyKind} {body : List Stmt}
    {t : List Event} (hacc : Accepted params rets body) (hrun : Runs params rets body t)
    (hw : Watched t) : NoEscape t := by
  obtain ⟨o, r, hrun⟩ := hrun
  have hadm : ∀ e ∈ t, Admitted e := by
    intro e he
    refine ⟨?_, ?_⟩
    · rintro rfl
      exact hw.1 he
    · rintro rfl
      exact hw.2 he
  obtain ⟨hgood, _⟩ := execAll_sound (atEntry params) body hacc _ o r t (atEntry_rel params) hrun hadm
  exact fun h => hgood _ h rfl

/-- The parameter `own buf: []int`. -/
def buf : Decl := { name := "buf", kind := .slice, isOwn := true }

/-- `{ s := buf[0:3]; return s; }` -/
def returnHead : List Stmt :=
  [.bind "s" .slice false (some (.slice (.name "buf"))), .ret [.name "s"]]

/-- `first :: func(own buf: []int) -> []int { for (; more;) { … } return buf; }` around it. -/
def sliceOfOwned : List Stmt := [.forC [] true [] returnHead, .ret [.name "buf"]]

theorem sliceOfOwned_run :
    Runs [buf] [.slice] sliceOfOwned [.incr false, .escape false] := by
  have hbody : ExecAll .slice returnHead (atEntry [buf]) .returned
      (Var.local "s" .slice false :: atEntry [buf]) [.escape false] :=
    Path.seq_run (Path.act_run _ _) (Path.seq_out Outcome.noConfusion
      (Path.seq_run (Path.act_run _ _) ⟨rfl, rfl, rfl⟩))
  have hloop : Path.Loop ⟨true, false⟩ cutBack (fun _ _ => Event.again) (fun _ => .skip)
      (ExecAll .slice returnHead) (ExecAll .slice []) (atEntry [buf]) .returned
      (cutBack (atEntry [buf]) (Var.local "s" .slice false :: atEntry [buf]))
      ([] ++ [.escape false]) :=
    .escape (k := ⟨true, false⟩) (o := .returned) trivial (Path.skip_run _) hbody
  exact ⟨_, _, Path.seq_out Outcome.noConfusion (Path.seq_run (Path.act_run _ _)
    ⟨_, Path.seq_run (Path.skip_run _) hloop, rfl⟩)⟩

/-- A slice of an `own` parameter may be returned from inside a loop. -/
theorem sliceOfOwned_noEscape : NoEscape [.incr false, .escape false] :=
  @noEscape_of_accepted [buf] [.slice] sliceOfOwned _ rfl sliceOfOwned_run
    ⟨by decide, by decide⟩

/-- `mk :: func() -> []int { loc: [5]int; r: []int = loc[0:3]; return r; }` -/
def typedSlice : List Stmt :=
  [.bind "loc" .array true none, .bind "r" .slice true (some (.slice (.name "loc"))),
    .ret [.name "r"]]

/-- The type of the bind hides the slice from the walk. -/
theorem not_noEscape :
    ¬∀ params rets body t, Accepted params rets body → Runs params rets body t → NoEscape t := by
  intro h
  have hrun : Runs [] [.slice] typedSlice [.unwatched true, .escape true] :=
    ⟨.returned, _, Path.seq_run (Path.act_run _ _) (Path.seq_run (Path.act_run _ _)
      (Path.seq_out Outcome.noConfusion (Path.seq_run (Path.act_run _ _) ⟨rfl, rfl, rfl⟩)))⟩
  exact h [] [.slice] typedSlice _ rfl hrun (by decide)

end Arche.Semantic.Views
