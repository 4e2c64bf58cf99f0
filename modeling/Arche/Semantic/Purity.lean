import Mathlib.Data.List.Find
import Mathlib.Tactic.Common

/-!
# Purity of funcs

A `func` is checked by `purity_walk`, one look at every node of its body: a `run`, an
effect value in statement position, an out-list on an effect, a call of a proc, an
extern or a builtin that changes a pool, and a name that is a pool or a mutable global.
Callees are not looked into; a func that is called is checked on its own.

This module embeds the walk and, next to it, what the generated code of a body may do
(`Does`).

* What the type checker finds out of a call, that its type is an `Eff`, is part of the
  tree. An effect is built without being run, the walk says, so such a call passes. Only
  a func that returns an `Eff` is a builder and never emitted: in any other func the code
  of the call is the call of the extern.
* The body of an inline kernel names columns, which are neither pools nor globals.
* A failure policy is inlined where an operation names it.

1. `pure_of_accepted`: no call of a func of an accepted program does an effect, if none
   is in a place the walk does not look at.
2. `not_pure_of_accepted`: an extern that is called for a local.
-/

namespace Arche.Semantic.Purity

/-! ## The tree -/

/-- The nodes `purity_walk` tells apart. A name, field, index or slice is a `place` with its leftmost
name, `callee` is the name a call is resolved to, `fan` an inline kernel with the columns it binds,
`checked` an operation with its failure policy. -/
inductive Shape
  | run
  | exprStmt (isEff : Bool)
  | procCall
  | multiBind
  | call (isEff : Bool) (callee : Option String)
  | assign (root : Option String)
  | place (root : Option String)
  | fan (cols : List String)
  | checked (policy : String)
  | other
deriving DecidableEq, Repr

inductive Node
  | node (shape : Shape) (kids : List Node)

def Node.shape : Node → Shape
  | .node s _ => s

/-- A `proc` or, if `isFunc`, a `func`. A func that returns an `Eff` is a builder. -/
structure Decl where
  name : String
  isFunc : Bool
  isExtern : Bool := false
  isPolicy : Bool := false
  returnsEff : Bool := false
  params : List String := []
  body : List Node := []

structure Program where
  decls : List Decl
  groups : List (String × List String) := []
  archetypes : List String := []
  statics : List String := []
  constArrays : List String := []

/-! ## The walk -/

inductive Reason
  | runsMap
  | runsEff
  | callsBuiltin (name : String)
  | callsExtern (name : String)
  | callsProc (name : String)
  | writesColumn
  | writesGlobal
  | readsColumn
  | readsGlobal
deriving DecidableEq, Repr

/-- `name_is_archetype_mutating_builtin`. -/
def isMutatingBuiltin (name : String) : Bool :=
  name == "insert" || name == "delete" || name == "dealloc"

/-- `func_call_effect_reason`. -/
def Program.effectReason (P : Program) (name : String) : Option Reason :=
  if isMutatingBuiltin name then some (.callsBuiltin name)
  else match P.decls.find? (·.name == name) with
    | none => none
    | some d =>
      if d.isExtern then some (.callsExtern name)
      else if d.isFunc then none
      else some (.callsProc name)

/-- The first call among the children of a statement. -/
def innerCall : List Node → Option (Bool × Option String)
  | [] => none
  | .node (.call isEff callee) _ :: _ => some (isEff, callee)
  | _ :: ns => innerCall ns

/-- What `purity_walk` says of a node before it looks at the children. -/
def Program.ownReason (P : Program) (params : List String) (kernelMode : Bool) (kids : List Node) :
    Shape → Option Reason
  | .run => some .runsMap
  | .exprStmt isEff => if isEff then some .runsEff else none
  | .procCall =>
    match innerCall kids with
    | none => none
    | some (isEff, callee) => if isEff then some .runsEff else callee.bind P.effectReason
  | .call isEff callee => if isEff then none else callee.bind P.effectReason
  | .assign (some x) =>
    if kernelMode || params.contains x then none
    else if P.archetypes.contains x then some .writesColumn
    else if P.statics.contains x then some .writesGlobal
    else none
  | .place (some x) =>
    if kernelMode || params.contains x then none
    else if P.archetypes.contains x then some .readsColumn
    else if P.statics.contains x && !P.constArrays.contains x then some .readsGlobal
    else none
  | .assign none | .place none | .multiBind | .fan _ | .checked _ | .other => none

section Walk

variable (P : Program) (params : List String) (kernelMode : Bool)

mutual

/-- `purity_walk`. -/
def purityWalk : Node → Option Reason
  | .node s kids => (P.ownReason params kernelMode kids s).or (purityWalkAll kids)

def purityWalkAll : List Node → Option Reason
  | [] => none
  | n :: ns => (purityWalk n).or (purityWalkAll ns)

end

end Walk

/-- `func_purity_body_view`. -/
def Program.funcPurityBody (P : Program) (d : Decl) : Option Reason :=
  purityWalkAll P d.params false d.body

/-- A func `enforce_func_purity` looks at. -/
def Decl.enforced (d : Decl) : Bool := d.isFunc && !d.isExtern && !d.isPolicy

/-- No func is reported, and the members of every group are funcs that are no externs
(`analyze_func_group`). -/
structure Program.Accepted (P : Program) : Prop where
  pure : ∀ d ∈ P.decls, d.enforced = true → P.funcPurityBody d = none
  groups : ∀ g ∈ P.groups, ∀ m ∈ g.2,
    ∃ d, P.decls.find? (fun d => d.isFunc && d.name == m) = some d ∧ d.isExtern = false

/-! ## What the code may do -/

inductive Event
  | runMap
  | foreign (name : String)
  | mutate (builtin : String)
  | callback (param : String)
  | readColumn (x : String)
  | writeColumn (x : String)
  | readGlobal (x : String)
  | writeGlobal (x : String)
deriving DecidableEq, Repr

/-- `find_callable_sig`: a policy is not called. -/
def Program.callable (P : Program) (name : String) : Option Decl :=
  P.decls.find? fun d => !d.isPolicy && d.name == name

/-- A member of a group, as codegen.c finds it. -/
def Program.member (P : Program) (name : String) : Option Decl :=
  P.decls.find? fun d => d.isFunc && !d.isPolicy && d.name == name

/-- `find_policy_decl`. -/
def Program.policy (P : Program) (name : String) : Option Decl :=
  P.decls.find? fun d => d.isPolicy && d.name == name

/-- A call of `f` can be one of `d`. -/
inductive Program.Calls (P : Program) (f : String) (d : Decl) : Prop
  | direct : P.callable f = some d → P.Calls f d
  | group {members : List String} {m : String} :
      (f, members) ∈ P.groups → m ∈ members → P.member m = some d → P.Calls f d

/-- Reading through the leftmost name `x`, where `cols` are the columns bound around it. -/
def Program.reads (P : Program) (params cols : List String) (x : String) : Option Event :=
  if cols.contains x then some (.readColumn x)
  else if params.contains x then none
  else if P.archetypes.contains x then some (.readColumn x)
  else if P.statics.contains x && !P.constArrays.contains x then some (.readGlobal x)
  else none

/-- Writing through the leftmost name `x`. -/
def Program.writes (P : Program) (params cols : List String) (x : String) : Option Event :=
  if cols.contains x then some (.writeColumn x)
  else if params.contains x then none
  else if P.archetypes.contains x then some (.writeColumn x)
  else if P.statics.contains x then some (.writeGlobal x)
  else none

/-- The columns a node binds for its children. -/
def Shape.cols : Shape → List String
  | .fan cols => cols
  | _ => []

/-- Some execution of the node performs the event, in a body with the given parameters and inside
kernels that bind the given columns. The body of a builder is run where its call is an effect. -/
inductive Does (P : Program) : List String → List String → Node → Event → Prop
  | run {params cols : List String} {kids : List Node} :
      Does P params cols (.node .run kids) .runMap
  | child {params cols : List String} {s : Shape} {kids : List Node} {n : Node} {e : Event} :
      n ∈ kids → Does P params (s.cols ++ cols) n e → Does P params cols (.node s kids) e
  | read {params cols : List String} {x : String} {kids : List Node} {e : Event} :
      P.reads params cols x = some e → Does P params cols (.node (.place (some x)) kids) e
  | write {params cols : List String} {x : String} {kids : List Node} {e : Event} :
      P.writes params cols x = some e → Does P params cols (.node (.assign (some x)) kids) e
  | mutate {params cols : List String} {isEff : Bool} {f : String} {kids : List Node} :
      isMutatingBuiltin f = true →
      Does P params cols (.node (.call isEff (some f)) kids) (.mutate f)
  | callback {params cols : List String} {isEff : Bool} {f : String} {kids : List Node} :
      f ∈ params → P.callable f = none →
      Does P params cols (.node (.call isEff (some f)) kids) (.callback f)
  | foreign {params cols : List String} {isEff : Bool} {f : String} {kids : List Node} {d : Decl} :
      P.Calls f d → d.isExtern = true →
      Does P params cols (.node (.call isEff (some f)) kids) (.foreign d.name)
  | enter {params cols : List String} {isEff : Bool} {f : String} {kids : List Node} {d : Decl}
      {n : Node} {e : Event} :
      P.Calls f d → d.isExtern = false → (d.returnsEff = true → isEff = true) → n ∈ d.body →
      Does P d.params [] n e → Does P params cols (.node (.call isEff (some f)) kids) e
  | policy {params cols : List String} {name : String} {kids : List Node} {d : Decl} {n : Node}
      {e : Event} :
      P.policy name = some d → n ∈ d.body → Does P d.params [] n e →
      Does P params cols (.node (.checked name) kids) e

/-- Some execution of a call performs the event. A builder is not emitted. -/
def Program.CallDoes (P : Program) (d : Decl) (e : Event) : Prop :=
  d.returnsEff = false ∧ ∃ n ∈ d.body, Does P d.params [] n e

/-! ## Places the walk does not look at -/

/-- The name is that of no policy. -/
def Program.Unshadowed (P : Program) (x : String) : Prop :=
  ∀ d ∈ P.decls, d.name = x → d.isPolicy = false

/-- The node itself is seen by the walk as it is executed: it is no inline kernel; a call is not of a
parameter nor of a name that is also a policy's; an effect that is built is of no extern and of no
builder. -/
def Program.TameShape (P : Program) (params : List String) : Shape → Prop
  | .fan _ => False
  | .call isEff (some f) =>
    (f ∈ params → P.callable f ≠ none) ∧ P.Unshadowed f ∧
    (∀ g ∈ P.groups, g.1 = f → ∀ m ∈ g.2, P.Unshadowed m) ∧
    (isEff = true → isMutatingBuiltin f = false ∧
      ∀ d, P.Calls f d → d.isFunc = true ∧ d.isExtern = false ∧ d.returnsEff = false)
  | _ => True

mutual

/-- Every node is. -/
def Program.Tame (P : Program) (params : List String) : Node → Prop
  | .node s kids => P.TameShape params s ∧ P.TameAll params kids

def Program.TameAll (P : Program) (params : List String) : List Node → Prop
  | [] => True
  | n :: ns => P.Tame params n ∧ P.TameAll params ns

end

mutual

/-- The policies the operations of a node name. -/
def Node.policies : Node → List String
  | .node (.checked name) kids => name :: policiesAll kids
  | .node _ kids => policiesAll kids

def policiesAll : List Node → List String
  | [] => []
  | n :: ns => n.policies ++ policiesAll ns

end

/-- A func that is emitted, or a policy that one applies, directly or through policies. -/
inductive Program.Applied (P : Program) : Decl → Prop
  | func {d : Decl} : d ∈ P.decls → d.enforced = true → d.returnsEff = false → P.Applied d
  | policy {d d' : Decl} {name : String} : P.Applied d → name ∈ policiesAll d.body →
      P.policy name = some d' → P.Applied d'

/-- The bodies of emitted funcs and of the policies they apply are seen as they are executed, and
these policies do nothing a func may not do. -/
structure Program.Plain (P : Program) : Prop where
  tame : ∀ d, P.Applied d → P.TameAll d.params d.body
  policies : ∀ d, P.Applied d → d.isPolicy = true → P.funcPurityBody d = none

/-! ## Funcs are pure -/

section Lists

variable {P : Program} {params : List String} {kernelMode : Bool} {n : Node} {ns : List Node}

theorem purityWalk_of_mem (hns : purityWalkAll P params kernelMode ns = none) (hn : n ∈ ns) :
    purityWalk P params kernelMode n = none := by
  induction ns with
  | nil => cases hn
  | cons m ns ih =>
    rw [purityWalkAll, Option.or_eq_none_iff] at hns
    rcases List.mem_cons.mp hn with rfl | hn
    · exact hns.1
    · exact ih hns.2 hn

theorem tame_of_mem (hns : P.TameAll params ns) (hn : n ∈ ns) : P.Tame params n := by
  induction ns with
  | nil => cases hn
  | cons m ns ih =>
    rw [Program.TameAll] at hns
    rcases List.mem_cons.mp hn with rfl | hn
    · exact hns.1
    · exact ih hns.2 hn

theorem policies_subset (hn : n ∈ ns) : n.policies ⊆ policiesAll ns := by
  induction ns with
  | nil => cases hn
  | cons m ns ih =>
    rw [policiesAll]
    rcases List.mem_cons.mp hn with rfl | hn
    · exact List.subset_append_left _ _
    · exact List.Subset.trans (ih hn) (List.subset_append_right _ _)

theorem policiesAll_subset (s : Shape) (kids : List Node) :
    policiesAll kids ⊆ (Node.node s kids).policies := by
  cases s with
  | checked name => exact List.subset_cons_self name _
  | _ => exact List.Subset.refl _

end Lists

section Calls

variable {P : Program} {params : List String} {f : String} {d : Decl}

theorem Program.Unshadowed.callable (h : P.Unshadowed f) :
    P.callable f = P.decls.find? (·.name == f) := by
  refine List.find?_congr fun d hd => ?_
  by_cases hname : d.name = f
  · rw [h d hd hname, hname]
    rfl
  · rw [beq_false_of_ne hname, Bool.and_false]

theorem Program.Unshadowed.member (h : P.Unshadowed f) :
    P.member f = P.decls.find? fun d => d.isFunc && d.name == f := by
  refine List.find?_congr fun d hd => ?_
  by_cases hname : d.name = f
  · rw [h d hd hname, hname]
    simp
  · rw [beq_false_of_ne hname, Bool.and_false, Bool.and_false]

theorem Program.Calls.mem (h : P.Calls f d) : d ∈ P.decls ∧ d.isPolicy = false := by
  cases h with
  | direct h =>
    have htest := List.find?_some h
    simp only [Bool.and_eq_true, Bool.not_eq_true'] at htest
    exact ⟨List.mem_of_find?_eq_some h, htest.1⟩
  | group _ _ h =>
    have htest := List.find?_some h
    simp only [Bool.and_eq_true, Bool.not_eq_true'] at htest
    exact ⟨List.mem_of_find?_eq_some h, htest.1.2⟩

/-- A call the walk lets pass is of a func it looks at. -/
theorem Program.Accepted.calls (hacc : P.Accepted) (hf : P.Unshadowed f)
    (hms : ∀ g ∈ P.groups, g.1 = f → ∀ m ∈ g.2, P.Unshadowed m) (hpass : P.effectReason f = none)
    (h : P.Calls f d) : d.isFunc = true ∧ d.isExtern = false := by
  cases h with
  | direct h =>
    rw [hf.callable] at h
    unfold Program.effectReason at hpass
    rw [h] at hpass
    split at hpass
    · cases hpass
    · dsimp only at hpass
      split at hpass
      · cases hpass
      · next hext =>
        split at hpass
        · next hfunc => exact ⟨hfunc, Bool.eq_false_iff.mpr hext⟩
        · cases hpass
  | @group members m hg hm h =>
    have hfunc := (List.find?_some h)
    simp only [Bool.and_eq_true] at hfunc
    rw [(hms _ hg rfl m hm).member] at h
    obtain ⟨d', hd', hext⟩ := hacc.groups _ hg m hm
    rw [h] at hd'
    cases hd'
    exact ⟨hfunc.1.1, hext⟩

end Calls

/-- What is executed is seen, so nothing but calls of checked funcs and policies is left. -/
theorem not_does {P : Program} (hacc : P.Accepted) (hplain : P.Plain) {params cols : List String}
    {n : Node} {e : Event} (h : Does P params cols n e) (hcols : cols = [])
    (hwalk : purityWalk P params false n = none) (htame : P.Tame params n)
    (hpol : ∀ name ∈ n.policies, ∀ d, P.policy name = some d → P.Applied d) : False := by
  -- a body that is entered is that of an emitted func or of an applied policy
  have hbody {d : Decl} (hd : P.Applied d) (hw : P.funcPurityBody d = none) {n : Node}
      (hn : n ∈ d.body)
      (ih : ([] : List String) = [] → purityWalk P d.params false n = none → P.Tame d.params n →
        (∀ name ∈ n.policies, ∀ d, P.policy name = some d → P.Applied d) → False) : False :=
    ih rfl (purityWalk_of_mem hw hn) (tame_of_mem (hplain.tame d hd) hn)
      fun name hname d' hd' => .policy hd (policies_subset hn hname) hd'
  induction h with
  | run => cases hwalk
  | @child params cols s kids n e hn _ ih =>
    rw [purityWalk, Option.or_eq_none_iff] at hwalk
    rw [Program.Tame] at htame
    have hnocols : s.cols ++ cols = [] := by
      cases s with
      | fan cs => exact absurd htame.1 id
      | _ => exact hcols
    exact ih hnocols (purityWalk_of_mem hwalk.2 hn) (tame_of_mem htame.2 hn)
      fun name hname => hpol name (policiesAll_subset s kids (policies_subset hn hname))
  | @read params cols x kids e hr =>
    subst hcols
    rw [purityWalk, Option.or_eq_none_iff] at hwalk
    have hown := hwalk.1
    simp only [Program.ownReason, Bool.false_or] at hown
    simp only [Program.reads, List.contains_nil, Bool.false_eq_true, if_false] at hr
    split at hr
    · cases hr
    · next hparam =>
      rw [if_neg hparam] at hown
      split at hr
      · next harch =>
        rw [if_pos harch] at hown
        cases hown
      · next harch =>
        rw [if_neg harch] at hown
        split at hr
        · next hstatic =>
          rw [if_pos hstatic] at hown
          cases hown
        · cases hr
  | @write params cols x kids e hw =>
    subst hcols
    rw [purityWalk, Option.or_eq_none_iff] at hwalk
    have hown := hwalk.1
    simp only [Program.ownReason, Bool.false_or] at hown
    simp only [Program.writes, List.contains_nil, Bool.false_eq_true, if_false] at hw
    split at hw
    · cases hw
    · next hparam =>
      rw [if_neg hparam] at hown
      split at hw
      · next harch =>
        rw [if_pos harch] at hown
        cases hown
      · next harch =>
        rw [if_neg harch] at hown
        split at hw
        · next hstatic =>
          rw [if_pos hstatic] at hown
          cases hown
        · cases hw
  | @mutate params cols isEff f kids hmut =>
    rw [purityWalk, Option.or_eq_none_iff] at hwalk
    rw [Program.Tame] at htame
    cases isEff with
    | true => exact absurd hmut (Bool.eq_false_iff.mp (htame.1.2.2.2 rfl).1)
    | false =>
      have hown : P.effectReason f = none := hwalk.1
      rw [Program.effectReason, if_pos hmut] at hown
      cases hown
  | callback hf hnone =>
    rw [Program.Tame] at htame
    exact htame.1.1 hf hnone
  | @foreign params cols isEff f kids d hcall hext =>
    rw [purityWalk, Option.or_eq_none_iff] at hwalk
    rw [Program.Tame] at htame
    obtain ⟨-, hf, hms, heff⟩ := htame.1
    have hno : d.isExtern = false := by
      cases isEff with
      | true => exact ((heff rfl).2 d hcall).2.1
      | false => exact (hacc.calls hf hms hwalk.1 hcall).2
    exact absurd hext (Bool.eq_false_iff.mp hno)
  | @enter params cols isEff f kids d n e hcall hext hbuild hn _ ih =>
    rw [purityWalk, Option.or_eq_none_iff] at hwalk
    rw [Program.Tame] at htame
    obtain ⟨-, hf, hms, heff⟩ := htame.1
    obtain ⟨hmem, hpolicy⟩ := hcall.mem
    have hfunc : d.isFunc = true := by
      cases isEff with
      | true => exact ((heff rfl).2 d hcall).1
      | false => exact (hacc.calls hf hms hwalk.1 hcall).1
    have hret : d.returnsEff = false := by
      rw [Bool.eq_false_iff]
      intro hret
      exact Bool.eq_false_iff.mp ((heff (hbuild hret)).2 d hcall).2.2 hret
    have henf : d.enforced = true := by
      rw [Decl.enforced, hfunc, hext, hpolicy]
      rfl
    exact hbody (.func hmem henf hret) (hacc.pure d hmem henf) hn ih
  | @policy params cols name kids d n e hd hn _ ih =>
    have happ : P.Applied d := hpol name List.mem_cons_self d hd
    have hpolicy : d.isPolicy = true := by
      have htest := List.find?_some hd
      simp only [Bool.and_eq_true] at htest
      exact htest.1
    exact hbody happ (hplain.policies d happ hpolicy) hn ih

/-- No execution of a call of a func does an effect. -/
theorem pure_of_accepted {P : Program} (hacc : P.Accepted) (hplain : P.Plain) {d : Decl}
    (hd : d ∈ P.decls) (henf : d.enforced = true) (e : Event) : ¬ P.CallDoes d e := by
  rintro ⟨hret, n, hn, h⟩
  have happ : P.Applied d := .func hd henf hret
  exact not_does hacc hplain h rfl (purityWalk_of_mem (hacc.pure d hd henf) hn)
    (tame_of_mem (hplain.tame d happ) hn)
    fun name hname d' hd' => .policy happ (policies_subset hn hname) hd'

/-- `f :: func(x: int) -> int { y := g(x); return y; }`. -/
def helperCaller : Decl where
  name := "f"
  isFunc := true
  params := ["x"]
  body := [.node .other [.node (.call false "g") [.node (.place "x") []]],
    .node .other [.node (.place "y") []]]

/-- With `g :: func(x: int) -> int { return x; }`. -/
def helperProgram : Program where
  decls := [
    { name := "g", isFunc := true, params := ["x"], body := [.node .other [.node (.place "x") []]] },
    helperCaller]

theorem helperProgram_accepted : helperProgram.Accepted where
  pure := by
    intro d hd _
    simp only [helperProgram, List.mem_cons, List.not_mem_nil, or_false] at hd
    rcases hd with rfl | rfl <;> decide
  groups := by simp [helperProgram]

theorem helperProgram_plain : helperProgram.Plain := by
  have happ (d : Decl) (h : helperProgram.Applied d) : d ∈ helperProgram.decls := by
    cases h with
    | func hd => exact hd
    | policy _ _ hd => exact List.mem_of_find?_eq_some hd
  refine ⟨fun d h => ?_, fun d h hpolicy => ?_⟩
  · have hd := happ d h
    simp only [helperProgram, List.mem_cons, List.not_mem_nil, or_false] at hd
    rcases hd with rfl | rfl <;>
      simp [Program.TameAll, Program.Tame, Program.TameShape, Program.Unshadowed, helperProgram,
        helperCaller]
  · have hd := happ d h
    simp only [helperProgram, List.mem_cons, List.not_mem_nil, or_false] at hd
    rcases hd with rfl | rfl <;> cases hpolicy

theorem helperProgram_pure : ¬ helperProgram.CallDoes helperCaller (.foreign "ext") :=
  pure_of_accepted helperProgram_accepted helperProgram_plain
    (List.mem_cons_of_mem _ List.mem_cons_self) rfl _

/-- `ext :: proc(x: int)(r: int);` in a `#foreign` block, and
`f :: func(x: int) -> int { e := ext(x); return 0; }`: the call is an effect that is built. -/
def foreignProgram : Program where
  decls := [
    { name := "ext", isFunc := false, isExtern := true, params := ["x", "r"] },
    { name := "f", isFunc := true, params := ["x"],
      body := [.node .other [.node (.call true "ext") [.node (.place "x") []]], .node .other []] }]

theorem not_pure_of_accepted :
    ¬ ∀ (P : Program) (d : Decl) (e : Event), P.Accepted → d ∈ P.decls → d.enforced = true →
      ¬ P.CallDoes d e := by
  intro h
  have hacc : foreignProgram.Accepted := by
    refine ⟨fun d hd henf => ?_, by simp [foreignProgram]⟩
    simp only [foreignProgram, List.mem_cons, List.not_mem_nil, or_false] at hd
    rcases hd with rfl | rfl
    · cases henf
    · decide
  refine h foreignProgram _ (.foreign "ext") hacc (List.mem_cons_of_mem _ List.mem_cons_self) rfl ?_
  refine ⟨rfl, _, List.mem_cons_self, .child List.mem_cons_self ?_⟩
  exact .foreign (d := { name := "ext", isFunc := false, isExtern := true, params := ["x", "r"] })
    (.direct rfl) rfl

end Arche.Semantic.Purity
