import Arche.Codegen.PoolSizes

/-!
# What a device asks of the pools

A pool declaration in a datasheet asks for a pool of its shape with at least as many rows, and the
pool is the driver's. `analyze_static_decl` keeps the greatest count for each shape while it goes
over the declarations, `sem_check_storage_requirements` compares it at the end. The count of a
requirement is what `atoi` makes of a literal, and `-1` for anything else.

* A shape is its signature; a name stands for that of its first declaration.
* `value` is a count as it is written, a literal in any base or a constant that folds.

1. `requirements_met_iff`: in a program without an error the requirements are met exactly if each
   is a count that `atoi` reads, above zero, as that of the pool, or a large enough pool is declared
   anyway.
2. `not_requirements_met`: `[ROWS]Foo` with a constant is accepted where there is no pool.
-/

namespace Arche.Semantic.StorageRequirements

open Codegen.PoolSizes (atoi literalCount)
open Codegen.ShapeIdentity (Shape computeShapeSignature)
open ConstEval (tryConstInt i32)

abbrev Name := List Char

/-! ## Declarations -/

structure ArchetypeDecl where
  name : Name
  shape : Shape
  exported : Bool

/-- The file a pool is declared in. -/
inductive Origin
  | datasheet
  | deviceImpl
  | driver
deriving DecidableEq

/-- `[capacity]name(init) { … }` with the number of columns it gives values to. -/
structure StaticDecl where
  name : Name
  origin : Origin
  capacity : Option ConstEval.Expr
  initLength : Option ConstEval.Expr
  inits : Nat

def StaticDecl.isRequirement (d : StaticDecl) : Bool := d.origin = .datasheet

/-- `static_pool_count` of `decl_summary_from_node`. -/
def StaticDecl.poolCount (d : StaticDecl) : Int := d.capacity.elim (-1) (literalCount (-1))

structure Program where
  consts : ConstEval.Program
  archetypes : List ArchetypeDecl
  statics : List StaticDecl

/-! ## Analysis -/

inductive StorageError
  | shapeIsGlobal (name : Name)
  | unknownArchetype (name : Name)
  | alreadyAllocated (name : Name)
  | missingCount
  | countNotConstant
  | initBlockNeedsSize (name : Name)
  | deviceImplAllocates (name : Name)
  | noPublicShape (name : Name) (minRows : Int)
  | noStorage (name : Name) (minRows : Int)
  | tooSmall (minRows capacity : Int)
deriving DecidableEq

structure ArchetypeInfo where
  signature : Name
  isAllocated : Bool
  allocCapacity : Int
  minRows : Int
  reqFirst : Option Name
  hasPublicDef : Bool

/-- An alias has the index of its archetype. -/
structure Ctx where
  archetypes : List ArchetypeInfo
  aliases : List (Name × Nat)
  errors : List StorageError

def Ctx.report (x : Ctx) (e : StorageError) : Ctx := { x with errors := x.errors ++ [e] }

def Ctx.modify (x : Ctx) (i : Nat) (f : ArchetypeInfo → ArchetypeInfo) : Ctx :=
  { x with archetypes := x.archetypes.modify i f }

def Ctx.addAlias (x : Ctx) (name : Name) (i : Nat) : Ctx :=
  { x with aliases := x.aliases ++ [(name, i)] }

/-- The record of a new shape. -/
def newShape (a : ArchetypeDecl) : ArchetypeInfo :=
  ⟨computeShapeSignature a.shape, false, 0, 0, none, a.exported⟩

/-- One more definition of a shape. -/
def ArchetypeInfo.define (s : ArchetypeInfo) (a : ArchetypeDecl) : ArchetypeInfo :=
  { s with hasPublicDef := s.hasPublicDef || a.exported }

/-- `analyze_archetype_decl`. -/
def analyzeArchetypeDecl (x : Ctx) (a : ArchetypeDecl) : Ctx :=
  match x.archetypes.findIdx? fun s => s.signature == computeShapeSignature a.shape with
  | some i => (x.modify i fun s => s.define a).addAlias a.name i
  | none =>
    { x with archetypes := x.archetypes ++ [newShape a] }.addAlias a.name x.archetypes.length

/-- `find_archetype`. -/
def findArchetype (x : Ctx) (name : Name) : Option Nat :=
  (x.aliases.find? fun e => e.1 == name).map (·.2)

/-- The count of a pool that is no literal is folded. -/
def recordedCapacity (C : ConstEval.Program) (d : StaticDecl) : Option Int :=
  if d.poolCount < 0 then (d.capacity.bind (tryConstInt C)).filter (0 ≤ ·) else some d.poolCount

/-- What a requirement does to the record of its shape. -/
def ArchetypeInfo.require (a : ArchetypeInfo) (d : StaticDecl) : ArchetypeInfo :=
  { a with
    minRows := if 0 ≤ d.poolCount ∧ a.minRows < d.poolCount then d.poolCount else a.minRows
    reqFirst := a.reqFirst <|> some d.name }

/-- The rest of `analyze_static_decl` for a pool, whose shape is not allocated before. -/
def allocate (C : ConstEval.Program) (x : Ctx) (i : Nat) (d : StaticDecl) : Ctx :=
  let x := x.modify i fun a => { a with isAllocated := true }
  if d.capacity.isNone then x.report .missingCount
  else match recordedCapacity C d with
    | none => x.report .countNotConstant
    | some c =>
      let x := x.modify i fun a => { a with allocCapacity := c }
      if 0 < d.inits && d.initLength.isNone then x.report (.initBlockNeedsSize d.name) else x

/-- `analyze_static_decl`. -/
def analyzeStaticDecl (C : ConstEval.Program) (x : Ctx) (d : StaticDecl) : Ctx :=
  match findArchetype x d.name with
  | none =>
    if d.origin = .deviceImpl then x
    else if '.' ∈ d.name then x.report (.shapeIsGlobal d.name)
    else x.report (.unknownArchetype d.name)
  | some i =>
    if d.isRequirement then x.modify i fun a => a.require d
    else if (x.archetypes[i]?).any (·.isAllocated) then x.report (.alreadyAllocated d.name)
    else allocate C x i d

/-- What `sem_check_device_impl_decls` says of a pool. -/
def checkDeviceImpl (d : StaticDecl) : List StorageError :=
  if d.origin = .deviceImpl then [.deviceImplAllocates d.name] else []

/-- `sem_check_storage_requirements` for one shape. -/
def checkRequirements (a : ArchetypeInfo) : List StorageError :=
  let name := a.reqFirst.getD "shape".toList
  if a.minRows ≤ 0 then []
  else if !a.hasPublicDef then [.noPublicShape name a.minRows]
  else if !a.isAllocated then [.noStorage name a.minRows]
  else if a.allocCapacity < a.minRows then [.tooSmall a.minRows a.allocCapacity]
  else []

namespace Program

/-- After pass 1. -/
def shapes (P : Program) : Ctx := P.archetypes.foldl analyzeArchetypeDecl ⟨[], [], []⟩

/-- After pass 2. -/
def analyzed (P : Program) : Ctx := P.statics.foldl (analyzeStaticDecl P.consts) P.shapes

def errors (P : Program) : List StorageError :=
  P.analyzed.errors ++ P.statics.flatMap checkDeviceImpl ++
    P.analyzed.archetypes.flatMap checkRequirements

/-! ## What it is for -/

def shapeOf (P : Program) (name : Name) : Option Name :=
  (P.archetypes.find? fun a => a.name == name).map fun a => computeShapeSignature a.shape

/-- The pools of a shape. -/
def pools (P : Program) (sig : Name) : List StaticDecl :=
  P.statics.filter fun d => !d.isRequirement && P.shapeOf d.name == some sig

def value (P : Program) (d : StaticDecl) : Option Int := d.capacity.bind (tryConstInt P.consts)

/-- A datasheet asks for `n` rows of the shape. -/
structure Requires (P : Program) (r : StaticDecl) (sig : Name) (n : Int) : Prop where
  mem : r ∈ P.statics
  requirement : r.isRequirement = true
  shape : P.shapeOf r.name = some sig
  value : P.value r = some n

/-- There is exactly one pool of the shape, and it has the rows. -/
def Met (P : Program) (sig : Name) (n : Int) : Prop :=
  ∃ d c, P.pools sig = [d] ∧ P.value d = some c ∧ n ≤ c

/-- The count is a literal that `atoi` reads, and not zero. -/
def Counted (r : StaticDecl) (n : Int) : Prop :=
  0 < n ∧ ∃ text ty, r.capacity = some (.lit text ty) ∧ atoi text = n

/-- What `atoi` takes a literal for is the capacity. -/
def Read (P : Program) (d : StaticDecl) : Prop :=
  ∀ text ty, d.capacity = some (.lit text ty) → 0 ≤ atoi text → P.value d = some (atoi text)

/-- A pool with the rows is declared. -/
def Declared (P : Program) (sig : Name) (n : Int) : Prop :=
  ∃ d ∈ P.pools sig, ∃ c, P.value d = some c ∧ n ≤ c

end Program

/-! ## The shapes -/

/-- Pass 1 has seen the declarations `as`: aliases lead to the shapes of the first declaration of a
name, and no shape is there twice. -/
structure Shaped (x : Ctx) (as : List ArchetypeDecl) : Prop where
  nodup : (x.archetypes.map (·.signature)).Nodup
  aliases : ∀ name, ((findArchetype x name).bind fun i => x.archetypes[i]?.map (·.signature)) =
    (as.find? fun a => a.name == name).map fun a => computeShapeSignature a.shape
  bound : ∀ e ∈ x.aliases, e.2 < x.archetypes.length
  fresh : ∀ s ∈ x.archetypes, s.isAllocated = false ∧ 0 ≤ s.minRows

theorem signatures_modify {x : Ctx} {i : Nat} {f : ArchetypeInfo → ArchetypeInfo}
    (hf : ∀ s, (f s).signature = s.signature) :
    (x.modify i f).archetypes.map (·.signature) = x.archetypes.map (·.signature) := by
  apply List.ext_getElem?
  intro j
  rw [List.getElem?_map, List.getElem?_map, Ctx.modify, List.getElem?_modify]
  cases x.archetypes[j]? with
  | none => rfl
  | some s =>
    by_cases hij : i = j
    · simp [hij, hf]
    · simp [hij]

/-- What an alias leads to is found in the signatures alone. -/
theorem signature_getElem (x : Ctx) (i : Nat) :
    x.archetypes[i]?.map (·.signature) = (x.archetypes.map (·.signature))[i]? := by
  rw [List.getElem?_map]

theorem findArchetype_lt {x : Ctx} {as : List ArchetypeDecl} (h : Shaped x as) {name : Name}
    {i : Nat} (hi : findArchetype x name = some i) : i < x.archetypes.length := by
  obtain ⟨e, he, rfl⟩ := Option.map_eq_some_iff.mp hi
  exact h.bound e (List.mem_of_find?_eq_some he)

/-- A new alias for the last shape or an old one. -/
theorem Shaped.alias {x y : Ctx} {as : List ArchetypeDecl} {i : Nat} {more : List Name}
    (h : Shaped x as) (a : ArchetypeDecl)
    (hsigs : y.archetypes.map (·.signature) = x.archetypes.map (·.signature) ++ more)
    (haliases : y.aliases = x.aliases ++ [(a.name, i)])
    (hi : y.archetypes[i]?.map (·.signature) = some (computeShapeSignature a.shape)) (name : Name) :
    ((findArchetype y name).bind fun i => y.archetypes[i]?.map (·.signature)) =
      ((as ++ [a]).find? fun a => a.name == name).map fun a => computeShapeSignature a.shape := by
  have hold := h.aliases name
  rw [List.find?_append, findArchetype, haliases, List.find?_append]
  cases hx : x.aliases.find? fun e => e.1 == name with
  | some e =>
    have hlt := h.bound e (List.mem_of_find?_eq_some hx)
    have hsame : y.archetypes[e.2]?.map (·.signature) = x.archetypes[e.2]?.map (·.signature) := by
      rw [signature_getElem, signature_getElem, hsigs,
        List.getElem?_append_left (by rwa [List.length_map])]
    have hsome : (x.archetypes[e.2]?.map (·.signature)).isSome = true := by
      simp [List.getElem?_eq_getElem hlt]
    simp only [findArchetype, hx, Option.map_some, Option.bind_some] at hold
    simp only [Option.some_or, Option.map_some, Option.bind_some, hsame, hold]
    rw [hold] at hsome
    cases hfind : as.find? fun a => a.name == name with
    | none => rw [hfind] at hsome; cases hsome
    | some b => rfl
  | none =>
    simp only [findArchetype, hx, Option.map_none, Option.bind_none] at hold
    have hnone : (as.find? fun a => a.name == name) = none := by
      cases hfind : as.find? fun a => a.name == name with
      | none => rfl
      | some b => rw [hfind] at hold; cases hold
    rw [hnone, Option.none_or, Option.none_or]
    by_cases hname : (a.name == name) = true
    · simp [hname, hi]
    · simp [hname]

theorem shaped_step {x : Ctx} {as : List ArchetypeDecl} (h : Shaped x as) (a : ArchetypeDecl) :
    Shaped (analyzeArchetypeDecl x a) (as ++ [a]) := by
  unfold analyzeArchetypeDecl
  cases hfind : x.archetypes.findIdx? fun s => s.signature == computeShapeSignature a.shape with
  | some i =>
    obtain ⟨hlt, hsig, -⟩ := List.findIdx?_eq_some_iff_getElem.mp hfind
    have hkept : ((x.modify i fun s => s.define a).archetypes.map (·.signature)) =
        x.archetypes.map (·.signature) := signatures_modify fun _ => rfl
    refine ⟨hkept.symm ▸ h.nodup, fun name => ?_, ?_, ?_⟩
    · refine h.alias (y := (x.modify i fun s => s.define a).addAlias a.name i) a
        (hkept.trans (List.append_nil _).symm) rfl ?_ name
      show (x.modify i fun s => s.define a).archetypes[i]?.map (·.signature) = _
      rw [signature_getElem, hkept, List.getElem?_map, List.getElem?_eq_getElem hlt]
      simpa using hsig
    · intro e he
      simp only [Ctx.addAlias, Ctx.modify, List.length_modify]
      rcases List.mem_append.mp he with he | he
      · exact h.bound e he
      · rw [List.mem_singleton.mp he]
        exact hlt
    · intro s hs
      obtain ⟨j, hj⟩ := List.mem_iff_getElem?.mp hs
      simp only [Ctx.addAlias, Ctx.modify, List.getElem?_modify] at hj
      obtain ⟨u, hu, rfl⟩ := Option.map_eq_some_iff.mp hj
      have hold := h.fresh u (List.mem_of_getElem? hu)
      split <;> exact hold
  | none =>
    have hnew : ∀ s ∈ x.archetypes, s.signature ≠ computeShapeSignature a.shape := by
      intro s hs
      simpa using List.findIdx?_eq_none_iff.mp hfind s hs
    refine ⟨?_, fun name => ?_, ?_, ?_⟩
    · rw [Ctx.addAlias, List.map_append, List.nodup_append]
      refine ⟨h.nodup, List.nodup_singleton _, ?_⟩
      rintro _ hi _ hj
      obtain ⟨s, hs, rfl⟩ := List.mem_map.mp hi
      obtain rfl := List.mem_singleton.mp hj
      exact hnew s hs
    · refine h.alias a (List.map_append ..) rfl ?_ name
      rw [Ctx.addAlias, List.getElem?_concat_length]
      rfl
    · intro e he
      rw [Ctx.addAlias, List.length_append]
      rcases List.mem_append.mp he with he | he
      · exact Nat.lt_add_right 1 (h.bound e he)
      · rw [List.mem_singleton.mp he]
        exact Nat.lt_succ_self _
    · intro s hs
      rcases List.mem_append.mp hs with hs | hs
      · exact h.fresh s hs
      · rw [List.mem_singleton.mp hs]
        exact ⟨rfl, Int.le_refl 0⟩

theorem shaped_foldl {x : Ctx} {as : List ArchetypeDecl} (h : Shaped x as)
    (rest : List ArchetypeDecl) : Shaped (rest.foldl analyzeArchetypeDecl x) (as ++ rest) := by
  induction rest generalizing x as with
  | nil => rwa [List.append_nil]
  | cons a rest ih =>
    have hrest := ih (shaped_step h a)
    rwa [List.append_assoc, List.singleton_append] at hrest

theorem Program.shaped (P : Program) : Shaped P.shapes P.archetypes := by
  have hempty : Shaped ⟨[], [], []⟩ [] :=
    ⟨List.nodup_nil, fun _ => rfl, fun _ he => (by cases he), fun _ hs => (by cases hs)⟩
  exact shaped_foldl hempty P.archetypes

/-! ## The counts -/

/-- The pools of a shape among `ds`. -/
def Program.poolsIn (P : Program) (ds : List StaticDecl) (sig : Name) : List StaticDecl :=
  ds.filter fun d => !d.isRequirement && P.shapeOf d.name == some sig

/-- The record of a shape after the declarations `ds`. -/
structure Tallied (P : Program) (s : ArchetypeInfo) (ds : List StaticDecl) : Prop where
  rows : ∀ r ∈ ds, r.isRequirement = true → P.shapeOf r.name = some s.signature →
    0 ≤ r.poolCount → r.poolCount ≤ s.minRows
  pools : s.isAllocated = false ∧ P.poolsIn ds s.signature = [] ∨
    s.isAllocated = true ∧ ∃ d, P.poolsIn ds s.signature = [d] ∧
      recordedCapacity P.consts d = some s.allocCapacity

variable {P : Program} {s : ArchetypeInfo} {ds : List StaticDecl} {d : StaticDecl} {x : Ctx}

theorem poolsIn_snoc (ds : List StaticDecl) (d : StaticDecl) (sig : Name) :
    P.poolsIn (ds ++ [d]) sig = P.poolsIn ds sig ++ P.poolsIn [d] sig := List.filter_append ..

theorem Tallied.other (h : Tallied P s ds) (hd : P.shapeOf d.name ≠ some s.signature) :
    Tallied P s (ds ++ [d]) where
  rows := by
    intro r hr hreq hshape
    rcases List.mem_append.mp hr with hr | hr
    · exact h.rows r hr hreq hshape
    · rw [List.mem_singleton.mp hr] at hshape
      exact absurd hshape hd
  pools := by
    have hnone : P.poolsIn [d] s.signature = [] := by simp [Program.poolsIn, hd]
    rw [poolsIn_snoc, hnone, List.append_nil]
    exact h.pools

theorem Tallied.require (h : Tallied P s ds) (hreq : d.isRequirement = true) :
    Tallied P (s.require d) (ds ++ [d]) where
  rows := by
    intro r hr hreq' hshape hcount
    rcases List.mem_append.mp hr with hr | hr
    · have hold := h.rows r hr hreq' hshape hcount
      simp only [ArchetypeInfo.require]
      split <;> omega
    · rw [List.mem_singleton.mp hr] at hcount ⊢
      simp only [ArchetypeInfo.require]
      split <;> omega
  pools := by
    have hnone : P.poolsIn [d] s.signature = [] := by simp [Program.poolsIn, hreq]
    simp only [ArchetypeInfo.require]
    rw [poolsIn_snoc, hnone, List.append_nil]
    exact h.pools

theorem Tallied.allocated (h : Tallied P s ds) (hpool : d.isRequirement = false)
    (hd : P.shapeOf d.name = some s.signature) (hfree : s.isAllocated = false) {c : Int}
    (hc : recordedCapacity P.consts d = some c) :
    Tallied P { s with isAllocated := true, allocCapacity := c } (ds ++ [d]) where
  rows := by
    intro r hr hreq hshape
    rcases List.mem_append.mp hr with hr | hr
    · exact h.rows r hr hreq hshape
    · rw [List.mem_singleton.mp hr, hpool] at hreq
      cases hreq
  pools := by
    have hone : P.poolsIn [d] s.signature = [d] := by simp [Program.poolsIn, hpool, hd]
    have hempty : P.poolsIn ds s.signature = [] := by
      rcases h.pools with ⟨-, hnone⟩ | ⟨hall, -⟩
      · exact hnone
      · rw [hfree] at hall
        cases hall
    exact .inr ⟨rfl, d, by rw [poolsIn_snoc, hone, hempty, List.nil_append], hc⟩

/-- Pass 2 has seen the declarations `ds`. -/
structure Counts (P : Program) (x : Ctx) (ds : List StaticDecl) : Prop where
  aliases : x.aliases = P.shapes.aliases
  signatures : x.archetypes.map (·.signature) = P.shapes.archetypes.map (·.signature)
  tallied : ∀ s ∈ x.archetypes, Tallied P s ds

/-- The shape that is found for a name is the one it stands for. -/
theorem Counts.shapeOf (h : Counts P x ds) (name : Name) :
    ((findArchetype x name).bind fun i => x.archetypes[i]?.map (·.signature)) = P.shapeOf name := by
  have hshaped := P.shaped.aliases name
  have hfind : findArchetype x name = findArchetype P.shapes name := by
    rw [findArchetype, findArchetype, h.aliases]
  rw [hfind]
  simp only [signature_getElem] at hshaped ⊢
  rw [h.signatures]
  exact hshaped

theorem Counts.found (h : Counts P x ds) {name : Name} {i : Nat}
    (hi : findArchetype x name = some i) :
    ∃ s, x.archetypes[i]? = some s ∧ P.shapeOf name = some s.signature := by
  have hlt : i < P.shapes.archetypes.length := by
    rw [findArchetype, h.aliases] at hi
    exact findArchetype_lt P.shaped hi
  have hlen : x.archetypes.length = P.shapes.archetypes.length := by
    simpa using congrArg List.length h.signatures
  have hget := List.getElem?_eq_getElem (hlen ▸ hlt)
  refine ⟨_, hget, ?_⟩
  rw [← h.shapeOf name, hi, Option.bind_some, hget]
  rfl

/-- A change of one record. -/
theorem Counts.modify (h : Counts P x ds) {i : Nat} {f : ArchetypeInfo → ArchetypeInfo}
    (hi : findArchetype x d.name = some i) (hf : ∀ s, (f s).signature = s.signature)
    (hone : ∀ s, x.archetypes[i]? = some s → Tallied P (f s) (ds ++ [d])) :
    Counts P (x.modify i f) (ds ++ [d]) where
  aliases := h.aliases
  signatures := (signatures_modify hf).trans h.signatures
  tallied := by
    intro s hs
    obtain ⟨t, ht, hshape⟩ := h.found hi
    obtain ⟨j, hj⟩ := List.mem_iff_getElem?.mp hs
    rw [Ctx.modify, List.getElem?_modify] at hj
    obtain ⟨u, hu, hsu⟩ := Option.map_eq_some_iff.mp hj
    by_cases hij : i = j
    · subst hij
      rw [if_pos rfl] at hsu
      exact hsu ▸ hone u hu
    · rw [if_neg hij] at hsu
      subst hsu
      refine (h.tallied _ (List.mem_of_getElem? hu)).other fun hsame => hij ?_
      -- the signatures are different, so it is another shape
      have hnodup : (x.archetypes.map (·.signature)).Nodup := h.signatures ▸ P.shaped.nodup
      have hlt : i < (x.archetypes.map (·.signature)).length := by
        rw [List.length_map]
        exact (List.getElem?_eq_some_iff.mp ht).1
      refine (List.getElem?_inj hlt hnodup).mp ?_
      rw [List.getElem?_map, List.getElem?_map, ht, hu, Option.map_some, Option.map_some, ← hshape,
        hsame]

theorem Counts.report {e : StorageError} (h : Counts P x ds) : Counts P (x.report e) ds :=
  ⟨h.aliases, h.signatures, h.tallied⟩

theorem modify_modify {i : Nat} {f g : ArchetypeInfo → ArchetypeInfo} :
    (x.modify i f).modify i g = x.modify i fun s => g (f s) := by
  simp only [Ctx.modify, List.modify_modify_eq]
  rfl

theorem report_ne {e : StorageError} : (x.report e).errors ≠ [] :=
  fun h => List.cons_ne_nil _ _ (List.append_eq_nil_iff.mp h).2

/-- What one declaration does if it reports nothing. -/
theorem analyzeStaticDecl_ok (hok : (analyzeStaticDecl P.consts x d).errors = []) :
    x.errors = [] ∧
      (Counts P x ds → Counts P (analyzeStaticDecl P.consts x d) (ds ++ [d])) := by
  unfold analyzeStaticDecl at hok ⊢
  cases hi : findArchetype x d.name with
  | none =>
    simp only [hi] at hok
    dsimp only
    split at hok
    · next horigin =>
      rw [if_pos horigin]
      refine ⟨hok, fun h => ⟨h.aliases, h.signatures, fun s hs => (h.tallied s hs).other ?_⟩⟩
      rw [← h.shapeOf, hi]
      nofun
    · split at hok
      · exact absurd hok report_ne
      · exact absurd hok report_ne
  | some i =>
    simp only [hi] at hok ⊢
    by_cases hreq : d.isRequirement = true
    · rw [if_pos hreq] at hok ⊢
      refine ⟨hok, fun h => h.modify hi (fun _ => rfl) fun s hs => ?_⟩
      exact (h.tallied s (List.mem_of_getElem? hs)).require hreq
    · rw [if_neg hreq] at hok ⊢
      split at hok
      · exact absurd hok report_ne
      · next hfree =>
        rw [if_neg hfree]
        unfold allocate at hok ⊢
        split at hok
        · exact absurd hok report_ne
        · next hsome =>
          rw [if_neg hsome]
          cases hc : recordedCapacity P.consts d with
          | none =>
            simp only [hc] at hok
            exact absurd hok report_ne
          | some c =>
            simp only [hc] at hok ⊢
            split at hok
            · exact absurd hok report_ne
            · next hinit =>
              rw [if_neg hinit]
              refine ⟨hok, fun h => ?_⟩
              rw [modify_modify]
              refine h.modify hi (fun _ => rfl) fun s hs => ?_
              obtain ⟨t, ht, hshape⟩ := h.found hi
              rw [hs] at ht
              obtain rfl := Option.some.inj ht
              have hnot : s.isAllocated = false := by simpa [hs] using hfree
              exact (h.tallied s (List.mem_of_getElem? hs)).allocated (by simpa using hreq) hshape
                hnot hc

theorem analyzed_ok {rest : List StaticDecl}
    (hok : (rest.foldl (analyzeStaticDecl P.consts) x).errors = []) :
    x.errors = [] ∧
      (Counts P x ds → Counts P (rest.foldl (analyzeStaticDecl P.consts) x) (ds ++ rest)) := by
  induction rest generalizing x ds with
  | nil => exact ⟨hok, fun h => by rwa [List.append_nil]⟩
  | cons d rest ih =>
    obtain ⟨hx, hstep⟩ : x.errors = [] ∧ (Counts P x ds → _) :=
      analyzeStaticDecl_ok (@ih [] _ hok).1
    refine ⟨hx, fun h => ?_⟩
    have hrun := (ih hok).2 (hstep h)
    rwa [List.append_assoc, List.singleton_append] at hrun

theorem Program.counts (hok : P.errors = []) : Counts P P.analyzed P.statics := by
  have hanalyzed := (List.append_eq_nil_iff.mp (List.append_eq_nil_iff.mp hok).1).1
  have hstart : Counts P P.shapes [] → Counts P P.analyzed ([] ++ P.statics) :=
    (analyzed_ok hanalyzed).2
  refine hstart ⟨rfl, rfl, fun s hs => ?_⟩
  obtain ⟨hfree, -⟩ := P.shaped.fresh s hs
  exact ⟨fun _ hr => (by cases hr), .inl ⟨hfree, rfl⟩⟩

/-! ## The theorem -/

/-- The record of a shape that a name stands for. -/
theorem Counts.record (h : Counts P x ds) {name sig : Name} (hname : P.shapeOf name = some sig) :
    ∃ s ∈ x.archetypes, s.signature = sig := by
  rw [← h.shapeOf name] at hname
  obtain ⟨i, -, hi⟩ := Option.bind_eq_some_iff.mp hname
  obtain ⟨s, hs, hsig⟩ := Option.map_eq_some_iff.mp hi
  exact ⟨s, List.mem_of_getElem? hs, hsig⟩

theorem recordedCapacity_value {c : Int} (h : recordedCapacity P.consts d = some c)
    (hread : P.Read d) : P.value d = some c := by
  unfold recordedCapacity at h
  split at h
  · exact (Option.filter_eq_some_iff.mp h).1
  · next hcount =>
    obtain rfl := Option.some.inj h
    unfold StaticDecl.poolCount at hcount ⊢
    cases hcap : d.capacity with
    | none => simp [hcap] at hcount
    | some e =>
      cases e with
      | lit text ty =>
        simp only [hcap, Option.elim_some, literalCount] at hcount ⊢
        exact hread text ty hcap (Int.not_lt.mp hcount)
      | _ => simp [hcap, literalCount] at hcount

theorem met_of_counted (hok : P.errors = []) {r : StaticDecl} {sig : Name} {n : Int}
    (hr : P.Requires r sig n) (hcounted : Program.Counted r n)
    (hread : ∀ d ∈ P.pools sig, P.Read d) :
    P.Met sig n := by
  have hcounts := Program.counts hok
  obtain ⟨s, hs, rfl⟩ := hcounts.record hr.shape
  obtain ⟨hpos, text, ty, hcap, hatoi⟩ := hcounted
  have hcount : r.poolCount = n := by simp [StaticDecl.poolCount, hcap, literalCount, hatoi]
  have hrows := (hcounts.tallied s hs).rows r hr.mem hr.requirement hr.shape (by omega)
  have hsweep : checkRequirements s = [] :=
    List.flatMap_eq_nil_iff.mp (List.append_eq_nil_iff.mp hok).2 s hs
  unfold checkRequirements at hsweep
  rw [if_neg (by omega)] at hsweep
  rcases (hcounts.tallied s hs).pools with ⟨hfree, -⟩ | ⟨-, d, hd, hc⟩
  · rw [hfree] at hsweep
    split at hsweep <;> simp at hsweep
  · have hmem : d ∈ P.poolsIn P.statics s.signature := hd ▸ List.mem_singleton_self d
    have hvalue := recordedCapacity_value hc (hread d hmem)
    refine ⟨d, _, hd, hvalue, ?_⟩
    split at hsweep
    · cases hsweep
    · split at hsweep
      · cases hsweep
      · split at hsweep
        · cases hsweep
        · omega

theorem met_of_declared (hok : P.errors = []) {r : StaticDecl} {sig : Name} {n : Int}
    (hr : P.Requires r sig n) (hdeclared : P.Declared sig n) : P.Met sig n := by
  have hcounts := Program.counts hok
  obtain ⟨s, hs, rfl⟩ := hcounts.record hr.shape
  obtain ⟨d, hd, c, hc, hle⟩ := hdeclared
  rcases (hcounts.tallied s hs).pools with ⟨-, hnone⟩ | ⟨-, d', hd', -⟩
  · rw [Program.pools] at hd
    rw [Program.poolsIn] at hnone
    rw [hnone] at hd
    cases hd
  · have hpools : P.pools s.signature = [d'] := hd'
    rw [hpools] at hd
    obtain rfl := List.mem_singleton.mp hd
    exact ⟨d, c, hpools, hc, hle⟩

theorem requirements_met_iff (P : Program) (hok : P.errors = []) :
    (∀ r sig n, P.Requires r sig n → P.Met sig n) ↔
      ∀ r sig n, P.Requires r sig n →
        (Program.Counted r n ∧ ∀ d ∈ P.pools sig, P.Read d) ∨ P.Declared sig n := by
  constructor
  · intro h r sig n hr
    obtain ⟨d, c, hd, hc, hle⟩ := h r sig n hr
    exact .inr ⟨d, hd ▸ List.mem_singleton_self d, c, hc, hle⟩
  · intro h r sig n hr
    rcases h r sig n hr with ⟨hcounted, hread⟩ | hdeclared
    · exact met_of_counted hok hr hcounted hread
    · exact met_of_declared hok hr hdeclared

/-- `Foo :: arche { a :: []int }`. -/
def foo : ArchetypeDecl := ⟨"Foo".toList, Codegen.PoolSizes.oneColumn, true⟩

/-- `ROWS :: 8`, and `[ROWS]Foo` in a datasheet. -/
def constantRows : Program where
  consts := ⟨[], [⟨"ROWS", "8".toList, .int i32⟩], fun _ _ _ => none⟩
  archetypes := [foo]
  statics := [⟨"Foo".toList, .datasheet, some (.name "ROWS" "ROWS"), none, 0⟩]

theorem not_requirements_met : constantRows.errors = [] ∧
    ¬ ∀ r sig n, constantRows.Requires r sig n → constantRows.Met sig n := by
  refine ⟨by decide, fun h => ?_⟩
  obtain ⟨d, -, hd, -⟩ := h ⟨"Foo".toList, .datasheet, some (.name "ROWS" "ROWS"), none, 0⟩
    (computeShapeSignature foo.shape) 8
    ⟨List.mem_singleton_self _, rfl, by decide, by decide⟩
  have hnone : constantRows.pools (computeShapeSignature foo.shape) = [] := rfl
  rw [hnone] at hd
  cases hd

/-- `[8]Foo` in a datasheet, and a pool of 16 rows. -/
def literalRows : Program where
  consts := ⟨[], [], fun _ _ _ => none⟩
  archetypes := [foo]
  statics := [⟨"Foo".toList, .driver, some (.lit "16".toList (.int i32)), none, 0⟩,
    ⟨"Foo".toList, .datasheet, some (.lit "8".toList (.int i32)), none, 0⟩]

theorem requirements_met_literalRows : literalRows.Met (computeShapeSignature foo.shape) 8 := by
  refine (requirements_met_iff literalRows (by decide)).mpr (fun r sig n hr => .inl ?_)
    ⟨"Foo".toList, .datasheet, some (.lit "8".toList (.int i32)), none, 0⟩ _ _
    ⟨List.mem_cons_of_mem _ (List.mem_singleton_self _), rfl, by decide, by decide⟩
  have hsecond : r = ⟨"Foo".toList, .datasheet, some (.lit "8".toList (.int i32)), none, 0⟩ := by
    rcases List.mem_cons.mp hr.mem with rfl | hmem
    · exact absurd hr.requirement (by decide)
    · exact List.mem_singleton.mp hmem
  have hn : n = 8 := Option.some.inj (hr.value.symm.trans (by rw [hsecond]; decide))
  rw [hn, hsecond]
  refine ⟨⟨by decide, "8".toList, .int i32, rfl, by decide⟩, fun d hd text ty hcap _ => ?_⟩
  obtain ⟨hmem, hpool⟩ := List.mem_filter.mp hd
  rcases List.mem_cons.mp hmem with rfl | hmem
  · cases hcap
    decide
  · rw [List.mem_singleton.mp hmem] at hpool
    cases hpool

end Arche.Semantic.StorageRequirements
