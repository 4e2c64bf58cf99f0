import Arche.Lib.Marking
import Arche.Lib.Words

/-!
# Unused declarations

`sem_check_dead_code` warns of what a program declares and does not use. A function is unused when
no kernel and no root of the program leads to it: what a body calls or names is found by the name of
the declaration, and a group brings its members along. Data is used when a name anywhere stands for
it, a query when a map is over it.

* A name stands for the one declaration of that name, of those that a name can stand for. In a
  program without errors there are no two of them, `UniqueNames`.

1. `mem_unusedFunctions_iff`: the functions that are reported.
2. `mem_unusedData_iff`: the static data and the enumerations that are.
-/

namespace Arche.Semantic.DeadCode

open Arche.Lib
open Relation

/-! ## Declarations -/

inductive DeclKind
  | world
  | archetype
  | proc
  | map
  | system
  | each
  | func
  | funcGroup
  | static
  | const
  | use
  | enum
  | sum
  | query
deriving DecidableEq, Repr

inductive Visibility
  | exported
  | unit
  | file
deriving DecidableEq, Repr

inductive DeclOrigin
  | entry
  | userModule
  | stdlib
  | core
deriving DecidableEq, Repr

inductive StaticKind
  | archetype
  | array
  | scalar
deriving DecidableEq, Repr

inductive NodeKind
  | callExpr
  | nameExpr
  | other
deriving DecidableEq, Repr

/-- A node of the syntax tree, with the nodes among its children. -/
inductive Node
  | node (kind : NodeKind) (id : Nat) (children : List Node)

structure SourceLoc where
  line : Nat
  column : Nat
deriving DecidableEq, Repr

/-- What the pass reads of `DeclSummary`. A map over a named query has the name. -/
structure DeclSummary where
  kind : DeclKind
  name : Option String
  body : Option Node := none
  loc : SourceLoc := ⟨0, 0⟩
  isExtern : Bool := false
  memberNames : List String := []
  staticKind : Option StaticKind := none
  isRequirement : Bool := false
  visibility : Visibility := .exported
  unit : Nat := 0
  origin : DeclOrigin := .entry
  isDrop : Bool := false
  isPolicy : Bool := false
  allowSlugs : List String := []
  queryRef : Option String := none

/-- The names that a node has been resolved to. -/
structure Channel where
  callee : Option String := none
  ref : Option String := none

inductive Lint
  | unusedFunction
  | unusedStaticConst
  | unusedEnum
  | unusedQuery
deriving DecidableEq, Repr

def Lint.slug : Lint → String
  | .unusedFunction => "unused_function"
  | .unusedStaticConst => "unused_static_const"
  | .unusedEnum => "unused_enum"
  | .unusedQuery => "unused_query"

/-- `SemanticContext`: the channels are by node, `coreOff` lines of the entry are the prelude. -/
structure Context where
  decls : List DeclSummary
  channels : List Channel
  entryHasRun : Bool := false
  coreOff : Nat := 0
  interfaces : List (Nat × String) := []
  modules : List (String × String) := []
  enabled : Lint → Bool := fun _ => true
  werror : Lint → Bool := fun _ => false

structure Diag where
  lint : Lint
  isError : Bool
  loc : SourceLoc
  message : String
deriving DecidableEq, Repr

/-! ## Names -/

def declIsCallable (k : DeclKind) : Bool := k == .func || k == .proc || k == .funcGroup || k == .map

def declIsRefTarget (k : DeclKind) : Bool :=
  declIsCallable k || k == .static || k == .const || k == .enum

section Pass

variable (ctx : Context)

/-- The declarations that a name can stand for, sorted by their names. -/
def buildNameIndex : List (String × Nat) :=
  (ctx.decls.zipIdx.filterMap fun d =>
    if declIsRefTarget d.1.kind then d.1.name.map (·, d.2) else none).insertionSort
      fun a b => (strcmp a.1.toList b.1.toList).isLE = true

def nameIndexLookup (arr : List (String × Nat)) (name : String) : Option Nat :=
  (arr.find? fun e => e.1 == name).map Prod.snd

/-- The `callee_def` channel that `sem_bind_defs` leaves. -/
def calleeDef (id : Nat) : Option Nat :=
  (ctx.channels[id]?.bind Channel.callee).bind (nameIndexLookup (buildNameIndex ctx))

def refDef (id : Nat) : Option Nat :=
  (ctx.channels[id]?.bind Channel.ref).bind (nameIndexLookup (buildNameIndex ctx))

def deadDeclIndexFor (name : String) : Option Nat :=
  ctx.decls.findIdx? fun d => declIsCallable d.kind && d.name == some name

/-! ## Marking -/

/-- What `dead_mark` marks with a declaration. -/
def members (i : Nat) : List Nat :=
  match ctx.decls[i]? with
  | some d => if d.kind = .funcGroup then d.memberNames.filterMap (deadDeclIndexFor ctx) else []
  | none => []

/-- `dead_mark`: `reachable` are the marked ones, `work` the pending ones. -/
def deadMark (i : Nat) (s : Marks Nat) : Marks Nat :=
  Marks.mark (members ctx) ctx.decls.length i s

def deadMarkDef (d : Option Nat) (s : Marks Nat) : Marks Nat :=
  match d with
  | none => s
  | some i => deadMark ctx i s

/-- What `dead_walk` does at one node. -/
def deadMarkNode (kind : NodeKind) (id : Nat) (s : Marks Nat) : Marks Nat :=
  match kind with
  | .callExpr => deadMarkDef ctx (calleeDef ctx id) s
  | .nameExpr => deadMarkDef ctx (refDef ctx id) s
  | .other => s

mutual

def deadWalk : Node → Marks Nat → Marks Nat
  | .node kind id children, s =>
    deadWalkAll children (deadMarkNode ctx kind id s)

def deadWalkAll : List Node → Marks Nat → Marks Nat
  | [], s => s
  | n :: ns, s => deadWalkAll ns (deadWalk n s)

end

/-- Kept whether something leads to it or not. -/
def deadIsRoot (d : DeclSummary) : Bool :=
  match d.name with
  | none => true
  | some name =>
    name == "main" || (d.isExtern && d.visibility == .exported) || d.isDrop || d.isPolicy ||
      name.toList.head? == some '_' || (d.origin == .stdlib || d.origin == .core) ||
      (d.origin == .userModule && d.visibility == .exported)

/-- Where the marking starts. -/
def isSeed (d : DeclSummary) : Bool :=
  if d.kind == .map || d.kind == .system || d.kind == .each then true
  else (d.kind == .func || d.kind == .proc || d.kind == .funcGroup) && deadIsRoot d

def deadSeed : Marks Nat :=
  ctx.decls.zipIdx.foldl (fun s d => if isSeed d.1 then deadMark ctx d.2 s else s) ⟨[], []⟩

/-- The loop over `work`. -/
def deadLoop : Nat → Marks Nat → Marks Nat
  | 0, s => s
  | n + 1, s =>
    match s.pending with
    | [] => s
    | i :: rest => deadLoop n <|
        match ctx.decls[i]?.bind DeclSummary.body with
        | some body => deadWalk ctx body ⟨s.marked, rest⟩
        | none => ⟨s.marked, rest⟩

def deadSweep : Marks Nat := deadLoop ctx ctx.decls.length (deadSeed ctx)

/-! ## What is reported -/

def entryIsBinary : Bool :=
  ctx.entryHasRun || ctx.decls.any fun d => d.origin == .entry && d.name == some "main"

/-- The prelude before the entry, and an entry that is no program, are not reported. -/
def isSpared (d : DeclSummary) : Bool :=
  (d.origin == .entry && decide (0 < ctx.coreOff ∧ d.loc.line ≤ ctx.coreOff)) ||
    (d.origin == .entry && !entryIsBinary ctx)

/-- Data and queries have fewer roots than functions. -/
def isKeptName (d : DeclSummary) : Bool :=
  match d.name with
  | none => true
  | some name => name.toList.head? == some '_' || (d.origin == .stdlib || d.origin == .core) ||
      (d.origin == .userModule && d.visibility == .exported)

def semDeclModulePath (d : DeclSummary) : Option String :=
  if d.origin = .entry then none
  else (ctx.interfaces.find? fun u => u.1 == d.unit).bind fun u =>
    (ctx.modules.find? fun m => m.1 == u.2).map Prod.snd

def pathText (open_ : String) : Option String → String
  | none => ""
  | some path => open_ ++ path ++ "]"

/-- `sem_emit_` for a lint, with the slugs that the declaration allows. -/
def semEmit (allowSlugs : List String) (lint : Lint) (loc : SourceLoc) (message : String) :
    List Diag :=
  if !ctx.enabled lint then []
  else if allowSlugs.contains lint.slug then []
  else [⟨lint, ctx.werror lint, loc, message⟩]

def unusedFunctionText (d : DeclSummary) : String :=
  "function '" ++ d.name.getD "" ++
    "' is declared but never called (prefix with '_' to silence, or @allow(unused_function))" ++
    pathText " [in " (semDeclModulePath ctx d)

def unusedStaticConstText (d : DeclSummary) : String :=
  (if d.staticKind = some .scalar then "static" else "static array") ++ " '" ++ d.name.getD "" ++
    "' is declared but never used (prefix with '_' to silence, or @allow(unused_static_const))" ++
    pathText " [in " (semDeclModulePath ctx d)

def unusedEnumText (d : DeclSummary) : String :=
  "enum '" ++ d.name.getD "" ++
    "' is declared but never used (prefix with '_' to silence, or @allow(unused_enum))" ++
    pathText " [in " (semDeclModulePath ctx d)

def unusedQueryText (d : DeclSummary) : String :=
  "query '" ++ d.name.getD "" ++
    "' is declared but never used (prefix with '_' to silence, or @allow(unused_query))" ++
    pathText " [" (semDeclModulePath ctx d)

def unusedFunctions : List Diag :=
  ctx.decls.zipIdx.flatMap fun (d, i) =>
    if d.kind ≠ .func ∧ d.kind ≠ .proc then []
    else if i ∈ (deadSweep ctx).marked ∨ deadIsRoot d then []
    else if isSpared ctx d then []
    else if d.allowSlugs.contains "dead_code" then []
    else semEmit ctx d.allowSlugs .unusedFunction d.loc (unusedFunctionText ctx d)

/-- What a channel refers to, anywhere in the program. -/
def referenced : List Nat :=
  (List.range ctx.channels.length).flatMap fun id =>
    (calleeDef ctx id).toList ++ (refDef ctx id).toList

def isStaticData (d : DeclSummary) : Bool :=
  d.kind == .static && (d.staticKind == some .scalar || d.staticKind == some .array) &&
    !d.isRequirement

def unusedData : List Diag :=
  ctx.decls.zipIdx.flatMap fun (d, i) =>
    if (isStaticData d = false ∧ d.kind ≠ .enum) ∨ i ∈ referenced ctx then []
    else if isKeptName d then []
    else if isSpared ctx d then []
    else if d.allowSlugs.contains "dead_code" then []
    else if d.kind = .enum then semEmit ctx d.allowSlugs .unusedEnum d.loc (unusedEnumText ctx d)
    else semEmit ctx d.allowSlugs .unusedStaticConst d.loc (unusedStaticConstText ctx d)

def queryUsed (q : DeclSummary) : Bool :=
  ctx.decls.any fun m => m.kind == .map && (m.queryRef.isSome && m.queryRef == q.name)

def unusedQueries : List Diag :=
  ctx.decls.flatMap fun q =>
    if q.kind ≠ .query ∨ isKeptName q then []
    else if isSpared ctx q then []
    else if queryUsed ctx q then []
    else if q.allowSlugs.contains "unused_query" then []
    else semEmit ctx q.allowSlugs .unusedQuery q.loc (unusedQueryText ctx q)

def semCheckDeadCode : List Diag :=
  if ctx.decls = [] then [] else unusedFunctions ctx ++ unusedData ctx ++ unusedQueries ctx

end Pass

/-! ## What leads to a declaration -/

/-- `n` is in the tree of `m`. -/
inductive Occurs : Node → Node → Prop
  | here (n : Node) : Occurs n n
  | child {n c : Node} {kind : NodeKind} {id : Nat} {children : List Node} :
      c ∈ children → Occurs n c → Occurs n (.node kind id children)

/-- A node that calls what is called `name`, or names it. -/
def StandsFor (ctx : Context) (name : String) : Node → Prop
  | .node .callExpr id _ => ctx.channels[id]?.bind Channel.callee = some name
  | .node .nameExpr id _ => ctx.channels[id]?.bind Channel.ref = some name
  | .node .other _ _ => False

/-- What is called or named is the declaration `j`. -/
def RefersTo (ctx : Context) (n : Node) (j : Nat) : Prop := ∃ name e, StandsFor ctx name n ∧
  ctx.decls[j]? = some e ∧ declIsRefTarget e.kind = true ∧ e.name = some name

/-- The declaration `i` leads to the declaration `j`: a group to its members, a body to what it
calls or names. -/
inductive LeadsTo (ctx : Context) (i j : Nat) : Prop
  | member {d e : DeclSummary} {name : String} : ctx.decls[i]? = some d → d.kind = .funcGroup →
      name ∈ d.memberNames → ctx.decls[j]? = some e → e.name = some name →
      declIsCallable e.kind = true → LeadsTo ctx i j
  | body {d : DeclSummary} {body n : Node} : ctx.decls[i]? = some d → d.body = some body →
      Occurs n body → RefersTo ctx n j → LeadsTo ctx i j

/-- No two declarations that a name can stand for have one name. -/
def UniqueNames (ctx : Context) : Prop :=
  (ctx.decls.filterMap fun d => if declIsRefTarget d.kind then d.name else none).Nodup

instance (ctx : Context) : Decidable (UniqueNames ctx) := inferInstanceAs (Decidable (List.Nodup _))

/-- Some kernel or root leads to the declaration, in any number of steps. -/
def Used (ctx : Context) (i : Nat) : Prop :=
  ∃ r d, ctx.decls[r]? = some d ∧ isSeed d = true ∧ ReflTransGen (LeadsTo ctx) r i

section Correct

variable {ctx : Context} {i j : Nat} {d e : DeclSummary} {name : String} {s : Marks Nat}

theorem refTarget_of_callable {k : DeclKind} (h : declIsCallable k = true) :
    declIsRefTarget k = true := by
  rw [declIsRefTarget, h]
  rfl

theorem UniqueNames.eq (h : UniqueNames ctx) (hd : ctx.decls[i]? = some d)
    (he : ctx.decls[j]? = some e) (hkind : declIsRefTarget d.kind = true)
    (hkind' : declIsRefTarget e.kind = true) (hname : d.name = some name)
    (hname' : e.name = some name) : i = j := by
  obtain ⟨hi, rfl⟩ := List.getElem?_eq_some_iff.mp hd
  obtain ⟨hj, rfl⟩ := List.getElem?_eq_some_iff.mp he
  rw [UniqueNames, List.Nodup, List.pairwise_filterMap, List.pairwise_iff_getElem] at h
  rcases Nat.lt_trichotomy i j with hlt | heq | hgt
  · exact absurd rfl (h i j hi hj hlt name (by rw [if_pos hkind, hname]) name
      (by rw [if_pos hkind', hname']))
  · exact heq
  · exact absurd rfl (h j i hj hi hgt name (by rw [if_pos hkind', hname']) name
      (by rw [if_pos hkind, hname]))

theorem mem_buildNameIndex {e : String × Nat} : e ∈ buildNameIndex ctx ↔
    ∃ d, ctx.decls[e.2]? = some d ∧ declIsRefTarget d.kind = true ∧ d.name = some e.1 := by
  obtain ⟨name, i⟩ := e
  rw [buildNameIndex, (List.perm_insertionSort _ _).mem_iff, List.mem_filterMap]
  constructor
  · rintro ⟨⟨d, j⟩, hmem, hd⟩
    rw [List.mem_zipIdx_iff_getElem?] at hmem
    split at hd
    next hkind =>
      obtain ⟨n, hn, heq⟩ := Option.map_eq_some_iff.mp hd
      cases heq
      exact ⟨d, hmem, hkind, hn⟩
    next => exact nomatch hd
  · rintro ⟨d, hd, hkind, hname⟩
    refine ⟨(d, i), List.mem_zipIdx_iff_getElem?.mpr hd, ?_⟩
    dsimp only at hname ⊢
    rw [if_pos hkind, hname]
    rfl

/-- The index finds the declaration of the name. -/
theorem nameIndexLookup_eq_some (h : UniqueNames ctx) :
    nameIndexLookup (buildNameIndex ctx) name = some i ↔
      ∃ d, ctx.decls[i]? = some d ∧ declIsRefTarget d.kind = true ∧ d.name = some name := by
  rw [nameIndexLookup, Option.map_eq_some_iff]
  constructor
  · rintro ⟨e, he, rfl⟩
    have hname := List.find?_some he
    obtain rfl := eq_of_beq hname
    exact mem_buildNameIndex.mp (List.mem_of_find?_eq_some he)
  · rintro ⟨d, hd, hkind, hname⟩
    have hmem : (name, i) ∈ buildNameIndex ctx := mem_buildNameIndex.mpr ⟨d, hd, hkind, hname⟩
    cases hfound : (buildNameIndex ctx).find? fun e => e.1 == name with
    | none =>
      have hnone := List.find?_eq_none.mp hfound _ hmem
      exact absurd (beq_self_eq_true name) hnone
    | some e =>
      have heq := List.find?_some hfound
      obtain rfl := eq_of_beq heq
      obtain ⟨d', hd', hkind', hname'⟩ :=
        mem_buildNameIndex.mp (List.mem_of_find?_eq_some hfound)
      exact ⟨e, rfl, h.eq hd' hd hkind' hkind hname' hname⟩

theorem deadDeclIndexFor_eq_some (h : UniqueNames ctx) : deadDeclIndexFor ctx name = some i ↔
    ∃ d, ctx.decls[i]? = some d ∧ declIsCallable d.kind = true ∧ d.name = some name := by
  have htest : ∀ d : DeclSummary, (declIsCallable d.kind && d.name == some name) = true ↔
      declIsCallable d.kind = true ∧ d.name = some name := fun d => by
    rw [Bool.and_eq_true, beq_iff_eq]
  constructor
  · intro hi
    obtain ⟨hlt, hd, -⟩ := List.findIdx?_eq_some_iff_getElem.mp hi
    exact ⟨_, List.getElem?_eq_getElem hlt, (htest _).mp hd⟩
  · rintro ⟨d, hd, hkind, hname⟩
    cases hfound : deadDeclIndexFor ctx name with
    | none =>
      have hnone := List.findIdx?_eq_none_iff.mp hfound d (List.mem_of_getElem? hd)
      exact absurd ((htest d).mpr ⟨hkind, hname⟩) (Bool.eq_false_iff.mp hnone)
    | some j =>
      obtain ⟨hlt, hj, -⟩ := List.findIdx?_eq_some_iff_getElem.mp hfound
      obtain ⟨hkind', hname'⟩ := (htest _).mp hj
      rw [h.eq (List.getElem?_eq_getElem hlt) hd (refTarget_of_callable hkind')
        (refTarget_of_callable hkind) hname' hname]

theorem mem_members (h : UniqueNames ctx) : j ∈ members ctx i ↔
    ∃ d, ctx.decls[i]? = some d ∧ d.kind = .funcGroup ∧ ∃ name ∈ d.memberNames,
      ∃ e, ctx.decls[j]? = some e ∧ declIsCallable e.kind = true ∧ e.name = some name := by
  unfold members
  cases hd : ctx.decls[i]? with
  | none => simp
  | some d =>
    simp only [Option.some.injEq, exists_eq_left']
    split
    next hkind =>
      rw [List.mem_filterMap]
      simp only [hkind, true_and, deadDeclIndexFor_eq_some h]
    next hkind =>
      simp only [hkind, false_and, List.not_mem_nil]

/-! ## The walk over a body -/

def nodeTargets (ctx : Context) (kind : NodeKind) (id : Nat) : List Nat :=
  match kind with
  | .callExpr => (calleeDef ctx id).toList
  | .nameExpr => (refDef ctx id).toList
  | .other => []

mutual

/-- What the nodes of a tree stand for, in order. -/
def targets (ctx : Context) : Node → List Nat
  | .node kind id children =>
    nodeTargets ctx kind id ++ targetsAll ctx children

def targetsAll (ctx : Context) : List Node → List Nat
  | [] => []
  | n :: ns => targets ctx n ++ targetsAll ctx ns

end

theorem deadMarkDef_eq (t : Option Nat) : deadMarkDef ctx t s =
    Marks.markAll (members ctx) ctx.decls.length t.toList s := by
  cases t <;> rfl

theorem deadMarkNode_eq (kind : NodeKind) (id : Nat) : deadMarkNode ctx kind id s =
    Marks.markAll (members ctx) ctx.decls.length (nodeTargets ctx kind id) s := by
  cases kind with
  | callExpr => exact deadMarkDef_eq _
  | nameExpr => exact deadMarkDef_eq _
  | other => rfl

mutual

/-- The walk marks what the tree stands for, one after the other. -/
theorem deadWalk_eq : ∀ (n : Node) (s : Marks Nat), deadWalk ctx n s =
    Marks.markAll (members ctx) ctx.decls.length (targets ctx n) s
  | .node kind id children, s => by
    rw [deadWalk, deadWalkAll_eq children, deadMarkNode_eq, targets, Marks.markAll, Marks.markAll,
      Marks.markAll, List.foldl_append]

theorem deadWalkAll_eq : ∀ (ns : List Node) (s : Marks Nat), deadWalkAll ctx ns s =
    Marks.markAll (members ctx) ctx.decls.length (targetsAll ctx ns) s
  | [], s => by rw [deadWalkAll, targetsAll]; rfl
  | n :: ns, s => by
    rw [deadWalkAll, deadWalkAll_eq ns, deadWalk_eq n, targetsAll, Marks.markAll, Marks.markAll,
      Marks.markAll, List.foldl_append]

end

theorem occurs_node {n : Node} {kind : NodeKind} {id : Nat} {children : List Node} :
    Occurs n (.node kind id children) ↔
      n = .node kind id children ∨ ∃ c ∈ children, Occurs n c := by
  constructor
  · intro h
    cases h with
    | here => exact .inl rfl
    | child hc h => exact .inr ⟨_, hc, h⟩
  · rintro (rfl | ⟨c, hc, h⟩)
    · exact .here _
    · exact .child hc h

theorem mem_resolved (h : UniqueNames ctx) (o : Option String) :
    j ∈ (o.bind (nameIndexLookup (buildNameIndex ctx))).toList ↔ ∃ name e, o = some name ∧
      ctx.decls[j]? = some e ∧ declIsRefTarget e.kind = true ∧ e.name = some name := by
  simp only [Option.mem_toList, Option.bind_eq_some_iff, nameIndexLookup_eq_some h,
    exists_and_left]

/-- The channels of a node hold the declaration it refers to. -/
theorem refersTo_iff (h : UniqueNames ctx) (kind : NodeKind) (id : Nat) (children : List Node) :
    RefersTo ctx (.node kind id children) j ↔ j ∈ nodeTargets ctx kind id := by
  cases kind with
  | callExpr | nameExpr => exact (mem_resolved h _).symm
  | other =>
    refine ⟨?_, fun hj => absurd hj List.not_mem_nil⟩
    rintro ⟨name, e, hstands, -⟩
    exact hstands.elim

mutual

theorem mem_targets (h : UniqueNames ctx) : ∀ m : Node,
    j ∈ targets ctx m ↔ ∃ n, Occurs n m ∧ RefersTo ctx n j
  | .node kind id children => by
    rw [targets, List.mem_append, ← refersTo_iff h kind id children, mem_targetsAll h children]
    simp only [occurs_node]
    constructor
    · rintro (hself | ⟨c, hc, n, hn, hrefers⟩)
      · exact ⟨_, .inl rfl, hself⟩
      · exact ⟨n, .inr ⟨c, hc, hn⟩, hrefers⟩
    · rintro ⟨n, rfl | ⟨c, hc, hn⟩, hrefers⟩
      · exact .inl hrefers
      · exact .inr ⟨c, hc, n, hn, hrefers⟩

theorem mem_targetsAll (h : UniqueNames ctx) : ∀ ms : List Node,
    j ∈ targetsAll ctx ms ↔ ∃ m ∈ ms, ∃ n, Occurs n m ∧ RefersTo ctx n j
  | [] => by simp [targetsAll]
  | m :: ms => by
    rw [targetsAll, List.mem_append, mem_targets h m, mem_targetsAll h ms, List.exists_mem_cons_iff]

end

/-- What the loop marks when it looks into a declaration. -/
def found (ctx : Context) (i : Nat) : List Nat :=
  match ctx.decls[i]?.bind DeclSummary.body with
  | some body => targets ctx body
  | none => []

theorem mem_found (h : UniqueNames ctx) : j ∈ found ctx i ↔ ∃ d body n, ctx.decls[i]? = some d ∧
    d.body = some body ∧ Occurs n body ∧ RefersTo ctx n j := by
  unfold found
  cases hbody : ctx.decls[i]?.bind DeclSummary.body with
  | none =>
    refine ⟨fun hj => absurd hj List.not_mem_nil, ?_⟩
    rintro ⟨d, body, n, hd, hbody', -⟩
    rw [hd, Option.bind_some, hbody'] at hbody
    exact nomatch hbody
  | some body =>
    obtain ⟨d, hd, hbody⟩ := Option.bind_eq_some_iff.mp hbody
    rw [mem_targets h]
    constructor
    · rintro ⟨n, hn⟩
      exact ⟨d, body, n, hd, hbody, hn⟩
    · rintro ⟨d', body', n, hd', hbody', hn⟩
      obtain rfl := Option.some.inj (hd.symm.trans hd')
      obtain rfl := Option.some.inj (hbody.symm.trans hbody')
      exact ⟨n, hn⟩

theorem leads_iff (h : UniqueNames ctx) : Marks.Leads (members ctx) (found ctx) i j ↔
    LeadsTo ctx i j := by
  rw [Marks.Leads, mem_members h, mem_found h]
  constructor
  · rintro (⟨d, hd, hkind, name, hname, e, he, hcall, hen⟩ | ⟨d, body, n, hd, hbody, hn, href⟩)
    · exact .member hd hkind hname he hen hcall
    · exact .body hd hbody hn href
  · rintro (⟨hd, hkind, hname, he, hen, hcall⟩ | ⟨hd, hbody, hn, href⟩)
    · exact .inl ⟨_, hd, hkind, _, hname, _, he, hcall, hen⟩
    · exact .inr ⟨_, _, _, hd, hbody, hn, href⟩

/-! ## The marked declarations -/

theorem deadLoop_eq (n : Nat) (s : Marks Nat) :
    deadLoop ctx n s = Marks.sweep (members ctx) (found ctx) ctx.decls.length n s := by
  induction n generalizing s with
  | zero => rfl
  | succ n ih =>
    rw [deadLoop, Marks.sweep]
    cases s.pending with
    | nil => rfl
    | cons i rest =>
      dsimp only
      rw [ih, found]
      cases ctx.decls[i]?.bind DeclSummary.body with
      | none => rfl
      | some body => exact congrArg _ (deadWalk_eq body _)

/-- The declarations that the marking starts from. -/
def seeds (ctx : Context) : List Nat :=
  (ctx.decls.zipIdx.filter fun d => isSeed d.1).map Prod.snd

theorem deadSeed_eq : deadSeed ctx =
    Marks.markAll (members ctx) ctx.decls.length (seeds ctx) ⟨[], []⟩ := by
  rw [deadSeed, Marks.markAll, seeds, List.foldl_map, List.foldl_filter]
  rfl

theorem mem_seeds : i ∈ seeds ctx ↔ ∃ d, ctx.decls[i]? = some d ∧ isSeed d = true := by
  simp only [seeds, List.mem_map, List.mem_filter, Prod.exists, List.mem_zipIdx_iff_getElem?]
  constructor
  · rintro ⟨d, j, ⟨hd, hseed⟩, rfl⟩
    exact ⟨d, hd, hseed⟩
  · rintro ⟨d, hd, hseed⟩
    exact ⟨d, i, ⟨hd, hseed⟩, rfl⟩

/-- What is marked in the end is what is used. -/
theorem mem_marked_iff (h : UniqueNames ctx) (i : Nat) :
    i ∈ (deadSweep ctx).marked ↔ Used ctx i := by
  have hlt : ∀ {j : Nat} {e : DeclSummary}, ctx.decls[j]? = some e →
      j ∈ List.range ctx.decls.length := fun he =>
    List.mem_range.mpr (List.getElem?_eq_some_iff.mp he).1
  have heager : ∀ x ∈ List.range ctx.decls.length, members ctx x ⊆ List.range ctx.decls.length := by
    intro x _ y hy
    obtain ⟨d, -, -, name, -, e, he, -⟩ := (mem_members h).mp hy
    exact hlt he
  have hlazy : ∀ x ∈ List.range ctx.decls.length, found ctx x ⊆ List.range ctx.decls.length := by
    intro x _ y hy
    obtain ⟨d, body, n, -, -, -, name, e, -, he, -⟩ := (mem_found h).mp hy
    exact hlt he
  have hroots : seeds ctx ⊆ List.range ctx.decls.length := by
    intro r hr
    obtain ⟨d, hd, -⟩ := mem_seeds.mp hr
    exact hlt hd
  have hleads : Marks.Leads (members ctx) (found ctx) = LeadsTo ctx :=
    funext fun a => funext fun b => propext (leads_iff h)
  rw [deadSweep, deadLoop_eq, deadSeed_eq]
  refine (Marks.mem_reach_iff heager hlazy hroots (Nat.le_of_eq List.length_range) i).trans ?_
  rw [hleads, Used]
  constructor
  · rintro ⟨r, hr, hpath⟩
    obtain ⟨d, hd, hseed⟩ := mem_seeds.mp hr
    exact ⟨r, d, hd, hseed, hpath⟩
  · rintro ⟨r, d, hd, hseed, hpath⟩
    exact ⟨r, mem_seeds.mpr ⟨d, hd, hseed⟩, hpath⟩

theorem mem_semEmit {allowSlugs : List String} {lint : Lint} {loc : SourceLoc} {message : String}
    {diag : Diag} : diag ∈ semEmit ctx allowSlugs lint loc message ↔ ctx.enabled lint = true ∧
      lint.slug ∉ allowSlugs ∧ diag = ⟨lint, ctx.werror lint, loc, message⟩ := by
  rw [semEmit, List.mem_ite_nil_left, List.mem_ite_nil_left, List.mem_singleton,
    List.contains_iff_mem, Bool.not_eq_true', Bool.not_eq_false]

/-- A root is used. -/
theorem used_of_root (hd : ctx.decls[i]? = some d) (hkind : d.kind = .func ∨ d.kind = .proc)
    (hroot : deadIsRoot d = true) : Used ctx i := by
  refine ⟨i, d, hd, ?_, .refl⟩
  rcases hkind with hkind | hkind <;> simp [isSeed, hkind, hroot]

/-- A function is reported just when nothing leads to it, unless the pass is not about its file or
the declaration allows it. -/
theorem mem_unusedFunctions_iff (hnames : UniqueNames ctx) (diag : Diag) :
    diag ∈ unusedFunctions ctx ↔ ∃ i d, ctx.decls[i]? = some d ∧
      (d.kind = .func ∨ d.kind = .proc) ∧ ¬Used ctx i ∧ isSpared ctx d = false ∧
      "dead_code" ∉ d.allowSlugs ∧ "unused_function" ∉ d.allowSlugs ∧
      ctx.enabled .unusedFunction = true ∧
      diag = ⟨.unusedFunction, ctx.werror .unusedFunction, d.loc, unusedFunctionText ctx d⟩ := by
  simp only [unusedFunctions, List.mem_flatMap, Prod.exists, List.mem_zipIdx_iff_getElem?,
    List.mem_ite_nil_left, not_or, not_and_or, not_not, mem_marked_iff hnames, Bool.not_eq_true,
    List.contains_iff_mem, mem_semEmit]
  constructor
  · rintro ⟨d, i, hd, hkind, ⟨hdead, -⟩, hspared, hallow, henabled, hslug, rfl⟩
    exact ⟨i, d, hd, hkind, hdead, hspared, hallow, hslug, henabled, rfl⟩
  · rintro ⟨i, d, hd, hkind, hdead, hspared, hallow, hslug, henabled, rfl⟩
    have hroot : deadIsRoot d = false :=
      Bool.eq_false_iff.mpr fun hroot => hdead (used_of_root hd hkind hroot)
    exact ⟨d, i, hd, hkind, ⟨hdead, hroot⟩, hspared, hallow, henabled, hslug, rfl⟩

/-! ## Data -/

/-- Some node of the program is resolved to the name. -/
def Named (ctx : Context) (d : DeclSummary) : Prop :=
  ∃ c ∈ ctx.channels, ∃ name, d.name = some name ∧ (c.callee = some name ∨ c.ref = some name)

theorem mem_referenced (hnames : UniqueNames ctx) (hd : ctx.decls[i]? = some d)
    (hkind : declIsRefTarget d.kind = true) : i ∈ referenced ctx ↔ Named ctx d := by
  have hlook : ∀ o : Option String, i ∈ (o.bind (nameIndexLookup (buildNameIndex ctx))).toList ↔
      ∃ name, d.name = some name ∧ o = some name := by
    intro o
    rw [mem_resolved hnames]
    simp only [hd, Option.some.injEq]
    constructor
    · rintro ⟨name, _, ho, rfl, -, hname⟩
      exact ⟨name, hname, ho⟩
    · rintro ⟨name, hname, ho⟩
      exact ⟨name, d, ho, rfl, hkind, hname⟩
  simp only [referenced, List.mem_flatMap, List.mem_range, List.mem_append, calleeDef, refDef, hlook]
  constructor
  · rintro ⟨id, hid, h⟩
    rw [List.getElem?_eq_getElem hid, Option.bind_some, Option.bind_some] at h
    refine ⟨_, List.getElem_mem hid, ?_⟩
    rcases h with ⟨name, hname, h⟩ | ⟨name, hname, h⟩
    · exact ⟨name, hname, .inl h⟩
    · exact ⟨name, hname, .inr h⟩
  · rintro ⟨c, hc, name, hname, h⟩
    obtain ⟨id, hid, rfl⟩ := List.getElem_of_mem hc
    refine ⟨id, hid, ?_⟩
    rw [List.getElem?_eq_getElem hid, Option.bind_some, Option.bind_some]
    exact h.imp (fun h => ⟨name, hname, h⟩) fun h => ⟨name, hname, h⟩

theorem refTarget_of_data (h : isStaticData d = true ∨ d.kind = .enum) :
    declIsRefTarget d.kind = true := by
  rcases h with h | h
  · rw [isStaticData, Bool.and_eq_true, Bool.and_eq_true] at h
    rw [eq_of_beq h.1.1]
    rfl
  · rw [h]
    rfl

/-- The lint of a declaration of data, with its text. -/
def dataDiag (ctx : Context) (d : DeclSummary) : Diag :=
  if d.kind = .enum then ⟨.unusedEnum, ctx.werror .unusedEnum, d.loc, unusedEnumText ctx d⟩
  else ⟨.unusedStaticConst, ctx.werror .unusedStaticConst, d.loc, unusedStaticConstText ctx d⟩

/-- Data is reported just when no node of the program has its name. -/
theorem mem_unusedData_iff (hnames : UniqueNames ctx) (diag : Diag) :
    diag ∈ unusedData ctx ↔ ∃ d ∈ ctx.decls, (isStaticData d = true ∨ d.kind = .enum) ∧
      ¬Named ctx d ∧ isKeptName d = false ∧ isSpared ctx d = false ∧ "dead_code" ∉ d.allowSlugs ∧
      (dataDiag ctx d).lint.slug ∉ d.allowSlugs ∧ ctx.enabled (dataDiag ctx d).lint = true ∧
      diag = dataDiag ctx d := by
  have hemit : ∀ d : DeclSummary, diag ∈ (if d.kind = .enum
        then semEmit ctx d.allowSlugs .unusedEnum d.loc (unusedEnumText ctx d)
        else semEmit ctx d.allowSlugs .unusedStaticConst d.loc (unusedStaticConstText ctx d)) ↔
      ctx.enabled (dataDiag ctx d).lint = true ∧ (dataDiag ctx d).lint.slug ∉ d.allowSlugs ∧
        diag = dataDiag ctx d := by
    intro d
    unfold dataDiag
    split <;> exact mem_semEmit
  simp only [unusedData, List.mem_flatMap, Prod.exists, List.mem_zipIdx_iff_getElem?,
    List.mem_ite_nil_left, not_or, not_and_or, not_not, Bool.not_eq_false, Bool.not_eq_true,
    List.contains_iff_mem, hemit]
  constructor
  · rintro ⟨d, i, hd, ⟨hkind, hunused⟩, hkept, hspared, hallow, henabled, hslug, hdiag⟩
    rw [mem_referenced hnames hd (refTarget_of_data hkind)] at hunused
    exact ⟨d, List.mem_of_getElem? hd, hkind, hunused, hkept, hspared, hallow, hslug, henabled,
      hdiag⟩
  · rintro ⟨d, hmem, hkind, hunused, hkept, hspared, hallow, hslug, henabled, hdiag⟩
    obtain ⟨i, hi, rfl⟩ := List.getElem_of_mem hmem
    have hd := List.getElem?_eq_getElem hi
    rw [← mem_referenced hnames hd (refTarget_of_data hkind)] at hunused
    exact ⟨_, i, hd, ⟨hkind, hunused⟩, hkept, hspared, hallow, henabled, hslug, hdiag⟩

end Correct

/-! ## A program -/

/-- `step` calls `live`, `ping` and `pong` call each other, and `table` is named nowhere. -/
def spun : Context where
  decls := [{ kind := .map, name := some "step", body := some (.node .callExpr 0 []) },
    { kind := .func, name := some "live", loc := ⟨2, 1⟩ },
    { kind := .func, name := some "ping", loc := ⟨3, 1⟩, body := some (.node .callExpr 1 []) },
    { kind := .func, name := some "pong", loc := ⟨4, 1⟩, body := some (.node .callExpr 2 []) },
    { kind := .static, staticKind := some .array, name := some "table", loc := ⟨5, 1⟩ }]
  channels := [⟨some "live", none⟩, ⟨some "pong", none⟩, ⟨some "ping", none⟩]
  entryHasRun := true

def pingUnused : Diag := ⟨.unusedFunction, false, ⟨3, 1⟩,
  "function 'ping' is declared but never called (prefix with '_' to silence, or " ++
    "@allow(unused_function))"⟩

theorem unusedFunctions_ping : ∃ i d, spun.decls[i]? = some d ∧ d.loc = ⟨3, 1⟩ ∧ ¬Used spun i := by
  have hmem : pingUnused ∈ unusedFunctions spun := by decide +kernel
  obtain ⟨i, d, hd, -, hused, -, -, -, -, hdiag⟩ :=
    (mem_unusedFunctions_iff (by decide) pingUnused).mp hmem
  exact ⟨i, d, hd, (congrArg Diag.loc hdiag).symm, hused⟩

def tableUnused : Diag := ⟨.unusedStaticConst, false, ⟨5, 1⟩,
  "static array 'table' is declared but never used (prefix with '_' to silence, or " ++
    "@allow(unused_static_const))"⟩

theorem unusedData_table : ∃ d ∈ spun.decls, d.loc = ⟨5, 1⟩ ∧ ¬Named spun d := by
  have hmem : tableUnused ∈ unusedData spun := by decide +kernel
  obtain ⟨d, hd, hkind, hunused, -, -, -, -, -, hdiag⟩ :=
    (mem_unusedData_iff (by decide) tableUnused).mp hmem
  refine ⟨d, hd, ?_, hunused⟩
  have hloc : (dataDiag spun d).loc = d.loc := by
    unfold dataDiag
    split <;> rfl
  rw [← hloc, ← hdiag]
  rfl

end Arche.Semantic.DeadCode
