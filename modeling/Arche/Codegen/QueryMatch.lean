import Mathlib.Tactic.Common
import Mathlib.Data.List.Nodup
import Mathlib.Data.List.Perm.Subperm

/-!
# The pools a kernel runs over

A query names columns. `query_match_archs` lists the archetype declarations that
have them all, and four consumers go on from there: `run` of a map, a
collective, a columnar system and an `each` fan.

A shape is the set of its component names, its first declaration is the
canonical one, and only canonical declarations have storage. `run` and the
collectives resolve a declaration to its allocated canonical shape. The system
and the fan use the declarations as they come, after choosing the columns that
drive the loop.

1. `kernels_agree`: `run` visits the allocated canonical shapes with the columns,
   each once; a collective takes the only one or is an error; the fan and the
   system agree always, and with `run` where every matching declaration is
   canonical and allocated.
2. `not_sameEverywhere`: a query that two allocated shapes match runs over both
   as a map and is an error as a collective.
-/

namespace Arche.Codegen.QueryMatch

structure ArchetypeDecl where
  name : String
  fields : List String
  fields_nodup : fields.Nodup
deriving DecidableEq

/-- `[capacity]name`. A datasheet requirement allocates nothing; a capacity that is no literal is
not seen here. -/
structure PoolDecl where
  archetypeName : String
  capacity : Option Nat
  isRequirement : Bool

/-- The declarations codegen looks at, in source order. The semantic pass refuses two declarations
of one name and a component named twice. -/
structure Program where
  archs : List ArchetypeDecl
  pools : List PoolDecl
  names_nodup : (archs.map ArchetypeDecl.name).Nodup

def ArchetypeDecl.owns (a : ArchetypeDecl) (cols : List String) : Bool :=
  cols.all fun c => a.fields.contains c

def archetypesSameShape (a b : ArchetypeDecl) : Bool :=
  a.fields.length == b.fields.length && a.fields.all fun f => b.fields.contains f

section Lookup

variable (prog : Program)

def canonicalArchetypeDecl (a : ArchetypeDecl) : ArchetypeDecl :=
  (prog.archs.find? fun d => archetypesSameShape d a).getD a

def findArchetypeDecl (name : String) : Option ArchetypeDecl :=
  (prog.archs.find? fun d => d.name == name).map (canonicalArchetypeDecl prog)

def canonicalArchName (name : String) : String :=
  match findArchetypeDecl prog name with
  | some c => c.name
  | none => name

/-- `0` without an allocation. -/
def getArchStaticCapacity (name : String) : Nat :=
  let allocates (s : PoolDecl) : Option Nat :=
    if s.isRequirement then none
    else if canonicalArchName prog s.archetypeName = canonicalArchName prog name then s.capacity
    else none
  (prog.pools.findSome? allocates).getD 0

def queryMatchArchs (cols : List String) (max : Nat) : List String :=
  if cols.isEmpty then []
  else ((prog.archs.filter fun a => a.owns cols).take max).map ArchetypeDecl.name

/-- The filter of `run` and of the collectives: allocated canonical names, without repetition. -/
def keepShape (kept : List String) (name : String) : List String :=
  let cn := canonicalArchName prog name
  if getArchStaticCapacity prog cn = 0 then kept
  else if cn ∈ kept then kept
  else if kept.length < 256 then kept ++ [cn]
  else kept

/-- `HIR_STMT_RUN`. An empty list is a compile error there. -/
def runPools (cols : List String) : List String :=
  (queryMatchArchs prog (cols.take 256) 256).foldl (keepShape prog) []

/-- `resolve_collective_query`: `none` is an error. -/
def collectivePool (cols : List String) : Option String :=
  match (queryMatchArchs prog (cols.take 256) 256).foldl (keepShape prog) [] with
  | [n] => some n
  | _ => none

def archOwningCol (col : String) : Option String :=
  (prog.archs.find? fun a => a.fields.contains col).map ArchetypeDecl.name

/-- The column is owned by a `[1]` pool. -/
def isSingletonCol (col : String) : Bool :=
  match archOwningCol prog col with
  | some owner => getArchStaticCapacity prog owner == 1
  | none => false

/-- The columns a system matches on: all of them if some archetype has them all, else those that do
not broadcast, else the first one. -/
def systemCols (params : List String) : List String :=
  let all := params.take 256
  let matched := if queryMatchArchs prog all 16 ≠ [] then all else []
  let drivers := if matched = [] then (params.filter fun c => !isSingletonCol prog c).take 256
    else matched
  if drivers = [] then params.take 1 else drivers

/-- The pools the body of a columnar system runs over. A self-join `as All` runs once. -/
def columnarSystemPools (params : List String) (queryBinder : Bool) : List String :=
  let archs := queryMatchArchs prog (systemCols prog params) 16
  if queryBinder then archs.take 1 else archs

/-- The columns an `each` fan matches on. It asks again whether an archetype has them all before it
falls back to the first one. -/
def eachFanCols (params : List String) : List String :=
  let all := params.take 256
  let matched := if queryMatchArchs prog all 16 ≠ [] then all else []
  let drivers := if matched = [] then (params.filter fun c => !isSingletonCol prog c).take 256
    else matched
  if drivers = [] then (if queryMatchArchs prog all 16 ≠ [] then params.take 256 else params.take 1)
  else drivers

def eachFanPools (params : List String) : List String :=
  queryMatchArchs prog (eachFanCols prog params) 16

/-! ## What is promised -/

/-- `n` names an allocated canonical shape that has every column. -/
def Selected (cols : List String) (n : String) : Prop :=
  ∃ a ∈ prog.archs, canonicalArchetypeDecl prog a = a ∧ a.owns cols = true ∧
    0 < getArchStaticCapacity prog a.name ∧ a.name = n

/-- The list holds exactly the selected shapes, each once. -/
def Selects (cols : List String) (pools : List String) : Prop :=
  pools.Nodup ∧ ∀ n, n ∈ pools ↔ Selected prog cols n

/-- All four run over the selected shapes. -/
def SameEverywhere (cols : List String) : Prop :=
  Selects prog cols (runPools prog cols) ∧ Selects prog cols (eachFanPools prog cols) ∧
  Selects prog cols (columnarSystemPools prog cols false) ∧
  ∃ n, collectivePool prog cols = some n ∧ Selects prog cols [n]

end Lookup

/-! ## Shapes -/

theorem sameShape_iff (a b : ArchetypeDecl) :
    archetypesSameShape a b = true ↔ ∀ f, f ∈ a.fields ↔ f ∈ b.fields := by
  rw [archetypesSameShape, Bool.and_eq_true, beq_iff_eq, List.all_eq_true]
  simp only [List.contains_iff_mem]
  constructor
  · rintro ⟨hlen, hsub⟩ f
    refine ⟨hsub f, fun hf => ?_⟩
    -- no repetition, as many names: the smaller set is the whole
    have hperm : a.fields.Perm b.fields :=
      (List.subperm_of_subset a.fields_nodup hsub).perm_of_length_le (Nat.le_of_eq hlen.symm)
    exact hperm.mem_iff.mpr hf
  · intro h
    have hperm : a.fields.Perm b.fields := (List.perm_ext_iff_of_nodup a.fields_nodup b.fields_nodup).mpr h
    exact ⟨hperm.length_eq, fun f hf => (h f).mp hf⟩

theorem owns_iff (a : ArchetypeDecl) (cols : List String) :
    a.owns cols = true ↔ ∀ c ∈ cols, c ∈ a.fields := by
  simp [ArchetypeDecl.owns]

theorem owns_congr {a b : ArchetypeDecl} (h : archetypesSameShape a b = true) (cols : List String) :
    a.owns cols = b.owns cols := by
  rw [Bool.eq_iff_iff, owns_iff, owns_iff]
  exact forall₂_congr fun c _ => (sameShape_iff a b).mp h c

section Canonical

variable {prog : Program}

theorem canonical_spec {a : ArchetypeDecl} (ha : a ∈ prog.archs) :
    canonicalArchetypeDecl prog a ∈ prog.archs ∧
    archetypesSameShape (canonicalArchetypeDecl prog a) a = true := by
  have hself : archetypesSameShape a a = true := (sameShape_iff a a).mpr fun _ => Iff.rfl
  rw [canonicalArchetypeDecl]
  cases hfind : prog.archs.find? fun d => archetypesSameShape d a with
  | none => exact absurd hself (by simpa using List.find?_eq_none.mp hfind a ha)
  | some c =>
    have hc := List.find?_some hfind
    exact ⟨List.mem_of_find?_eq_some hfind, hc⟩

/-- Every shape is its canonical shape's. -/
theorem canonical_idem {a : ArchetypeDecl} (ha : a ∈ prog.archs) :
    canonicalArchetypeDecl prog (canonicalArchetypeDecl prog a) = canonicalArchetypeDecl prog a := by
  obtain ⟨hmem, hsame⟩ := canonical_spec ha
  have hpred : (fun d => archetypesSameShape d (canonicalArchetypeDecl prog a)) =
      fun d => archetypesSameShape d a := by
    funext d
    rw [Bool.eq_iff_iff, sameShape_iff, sameShape_iff]
    exact forall_congr' fun f => by rw [(sameShape_iff _ a).mp hsame f]
  have hsome : (prog.archs.find? fun d => archetypesSameShape d a).isSome = true := by
    rw [List.find?_isSome]
    exact ⟨_, hmem, hsame⟩
  obtain ⟨c, hc⟩ := Option.isSome_iff_exists.mp hsome
  rw [canonicalArchetypeDecl, hpred, canonicalArchetypeDecl, hc]
  rfl

theorem canonicalArchName_eq {a : ArchetypeDecl} (ha : a ∈ prog.archs) :
    canonicalArchName prog a.name = (canonicalArchetypeDecl prog a).name := by
  have hfind : (prog.archs.find? fun d => d.name == a.name) = some a := by
    cases hf : prog.archs.find? fun d => d.name == a.name with
    | none => exact absurd (List.find?_eq_none.mp hf a ha) (by simp)
    | some d =>
      have hname : d.name = a.name := by simpa using List.find?_some hf
      rw [List.inj_on_of_nodup_map prog.names_nodup (List.mem_of_find?_eq_some hf) ha hname]
  rw [canonicalArchName, findArchetypeDecl, hfind]
  rfl

end Canonical

/-! ## The filter -/

section Keep

variable {prog : Program}

theorem keepShape_eq {a : ArchetypeDecl} (ha : a ∈ prog.archs) {kept : List String}
    (hroom : kept.length < 256) :
    keepShape prog kept a.name =
      if 0 < getArchStaticCapacity prog (canonicalArchetypeDecl prog a).name ∧
        (canonicalArchetypeDecl prog a).name ∉ kept
      then kept ++ [(canonicalArchetypeDecl prog a).name] else kept := by
  rw [keepShape, canonicalArchName_eq ha]
  by_cases hcap : getArchStaticCapacity prog (canonicalArchetypeDecl prog a).name = 0
  · rw [if_pos hcap, if_neg fun h => by omega]
  · by_cases hmem : (canonicalArchetypeDecl prog a).name ∈ kept
    · rw [if_neg hcap, if_pos hmem, if_neg fun h => h.2 hmem]
    · rw [if_neg hcap, if_neg hmem, if_pos hroom, if_pos ⟨by omega, hmem⟩]

theorem foldl_keepShape (as : List ArchetypeDecl) (has : ∀ a ∈ as, a ∈ prog.archs) :
    ∀ kept : List String, kept.Nodup → kept.length + as.length ≤ 256 →
      ((as.map ArchetypeDecl.name).foldl (keepShape prog) kept).Nodup ∧
      ∀ n, n ∈ (as.map ArchetypeDecl.name).foldl (keepShape prog) kept ↔
        n ∈ kept ∨ ∃ a ∈ as,
          0 < getArchStaticCapacity prog (canonicalArchetypeDecl prog a).name ∧
          n = (canonicalArchetypeDecl prog a).name := by
  induction as with
  | nil =>
    intro kept hnd _
    simp [hnd]
  | cons a as ih =>
    intro kept hnd hlen
    rw [List.length_cons] at hlen
    have ha := has a List.mem_cons_self
    have has' : ∀ a ∈ as, a ∈ prog.archs := fun b hb => has b (List.mem_cons_of_mem a hb)
    rw [List.map_cons, List.foldl_cons, keepShape_eq ha (by omega)]
    split
    · next hnew =>
      have hnd' : (kept ++ [(canonicalArchetypeDecl prog a).name]).Nodup :=
        hnd.append (List.nodup_singleton _) (by simpa using hnew.2)
      obtain ⟨h₁, h₂⟩ := ih has' _ hnd' (by simp; omega)
      refine ⟨h₁, fun n => ?_⟩
      simp only [h₂ n, List.mem_append, List.mem_cons, List.not_mem_nil, or_false,
        exists_eq_or_imp, or_assoc, hnew.1, true_and]
    · next hold =>
      obtain ⟨h₁, h₂⟩ := ih has' _ hnd (by omega)
      refine ⟨h₁, fun n => ?_⟩
      simp only [h₂ n, List.mem_cons, exists_eq_or_imp]
      constructor
      · rintro (h | h)
        · exact .inl h
        · exact .inr (.inr h)
      · rintro (h | ⟨hcap, rfl⟩ | h)
        · exact .inl h
        · by_contra hout
          exact hold ⟨hcap, fun hk => hout (.inl hk)⟩
        · exact .inr h

/-- Distinct allocated canonical shapes all stay. -/
theorem foldl_keepShape_self (as : List ArchetypeDecl) (has : ∀ a ∈ as, a ∈ prog.archs)
    (hcan : ∀ a ∈ as, canonicalArchetypeDecl prog a = a ∧ 0 < getArchStaticCapacity prog a.name) :
    ∀ kept : List String, (kept ++ as.map ArchetypeDecl.name).Nodup →
      kept.length + as.length ≤ 256 →
      (as.map ArchetypeDecl.name).foldl (keepShape prog) kept = kept ++ as.map ArchetypeDecl.name := by
  induction as with
  | nil =>
    intro kept _ _
    simp
  | cons a as ih =>
    intro kept hnd hlen
    rw [List.length_cons] at hlen
    obtain ⟨hc, hcap⟩ := hcan a List.mem_cons_self
    rw [List.map_cons, ← List.singleton_append, ← List.append_assoc] at hnd
    have hnew : a.name ∉ kept := by
      intro hmem
      exact List.disjoint_of_nodup_append (List.Nodup.of_append_left hnd) hmem (by simp)
    rw [List.map_cons, List.foldl_cons, keepShape_eq (has a List.mem_cons_self) (by omega), hc,
      if_pos ⟨hcap, hnew⟩,
      ih (fun b hb => has b (List.mem_cons_of_mem a hb))
        (fun b hb => hcan b (List.mem_cons_of_mem a hb)) _ hnd (by simp; omega)]
    simp

end Keep

/-! ## The four consumers -/

section Consumers

variable {prog : Program}

theorem queryMatchArchs_eq {cols : List String} {max : Nat} (hne : cols ≠ [])
    (hmax : (prog.archs.filter fun a => a.owns cols).length ≤ max) :
    queryMatchArchs prog cols max =
      (prog.archs.filter fun a => a.owns cols).map ArchetypeDecl.name := by
  rw [queryMatchArchs, if_neg (by simpa using hne), List.take_of_length_le hmax]

theorem runPools_selects {cols : List String} (hne : cols ≠ []) (hcols : cols.length ≤ 256)
    (hmax : (prog.archs.filter fun a => a.owns cols).length ≤ 256) :
    Selects prog cols (runPools prog cols) := by
  have howners : ∀ a ∈ prog.archs.filter fun a => a.owns cols, a ∈ prog.archs :=
    fun a ha => (List.mem_filter.mp ha).1
  rw [runPools, List.take_of_length_le hcols, queryMatchArchs_eq hne hmax]
  obtain ⟨hnd, hmem⟩ := foldl_keepShape _ howners [] List.nodup_nil (by simpa using hmax)
  refine ⟨hnd, fun n => ?_⟩
  rw [hmem n]
  constructor
  · rintro (h | ⟨a, ha, hcap, rfl⟩)
    · cases h
    · obtain ⟨ha, hown⟩ := List.mem_filter.mp ha
      obtain ⟨hc, hsame⟩ := canonical_spec ha
      exact ⟨_, hc, canonical_idem ha, by rw [owns_congr hsame]; exact hown, hcap, rfl⟩
  · rintro ⟨a, ha, hcan, hown, hcap, rfl⟩
    refine .inr ⟨a, List.mem_filter.mpr ⟨ha, hown⟩, ?_⟩
    rw [hcan]
    exact ⟨hcap, rfl⟩

/-- The second look of the fan finds what the first one found. -/
theorem eachFanCols_eq (params : List String) : eachFanCols prog params = systemCols prog params := by
  rw [eachFanCols, systemCols]
  by_cases h : queryMatchArchs prog (params.take 256) 16 = []
  · simp only [h, ne_eq, not_true_eq_false, if_false]
  · have hne : params.take 256 ≠ [] := by
      intro hnil
      rw [hnil] at h
      exact h rfl
    simp only [h, ne_eq, not_false_eq_true, if_true, hne, if_false]

theorem eachFanPools_eq_runPools {cols : List String} (hcols : cols.length ≤ 256)
    (hown : ∃ a ∈ prog.archs, a.owns cols = true)
    (hmax : (prog.archs.filter fun a => a.owns cols).length ≤ 16)
    (hcan : ∀ a ∈ prog.archs, a.owns cols = true →
      canonicalArchetypeDecl prog a = a ∧ 0 < getArchStaticCapacity prog a.name)
    (hne : cols ≠ []) : eachFanPools prog cols = runPools prog cols := by
  obtain ⟨b, hb, hbown⟩ := hown
  have hmatch : queryMatchArchs prog cols 16 ≠ [] := by
    rw [queryMatchArchs_eq hne hmax]
    intro hnil
    rw [List.map_eq_nil_iff] at hnil
    exact absurd (List.mem_filter.mpr ⟨hb, hbown⟩) (by rw [hnil]; exact List.not_mem_nil)
  have hdrive : eachFanCols prog cols = cols := by
    rw [eachFanCols, List.take_of_length_le hcols]
    simp only [if_pos hmatch, if_neg hne]
  have hnames : ((prog.archs.filter fun a => a.owns cols).map ArchetypeDecl.name).Nodup :=
    prog.names_nodup.sublist (List.filter_sublist.map _)
  rw [eachFanPools, hdrive, runPools, List.take_of_length_le hcols, queryMatchArchs_eq hne hmax,
    queryMatchArchs_eq hne (by omega),
    foldl_keepShape_self _ (fun a ha => (List.mem_filter.mp ha).1)
      (fun a ha => hcan a (List.mem_filter.mp ha).1 (List.mem_filter.mp ha).2) [] hnames
      (by simp; omega)]
  rfl

end Consumers

/-- The consumers of a query, for at most 256 columns and 256 matching declarations. A map runs over
the allocated canonical shapes with every column, each once. A collective takes the only shape of
these, and is an error if there is not exactly one. The fan and the columnar system resolve to the
same list, of which a self-join visits the first. They agree with the map if some declaration has
every column, at most 16 do, and all that do are canonical and allocated. -/
theorem kernels_agree (prog : Program) (cols : List String) (hne : cols ≠ [])
    (hcols : cols.length ≤ 256)
    (hmax : (prog.archs.filter fun a => a.owns cols).length ≤ 256) :
    Selects prog cols (runPools prog cols) ∧
    (∀ n, collectivePool prog cols = some n ↔ runPools prog cols = [n]) ∧
    columnarSystemPools prog cols false = eachFanPools prog cols ∧
    columnarSystemPools prog cols true = (eachFanPools prog cols).take 1 ∧
    ((∃ a ∈ prog.archs, a.owns cols = true) →
      (prog.archs.filter fun a => a.owns cols).length ≤ 16 →
      (∀ a ∈ prog.archs, a.owns cols = true →
        canonicalArchetypeDecl prog a = a ∧ 0 < getArchStaticCapacity prog a.name) →
      eachFanPools prog cols = runPools prog cols) := by
  refine ⟨runPools_selects hne hcols hmax, fun n => ?_, ?_, ?_, ?_⟩
  · rw [collectivePool, runPools]
    split
    · next m hm => rw [hm]; simp
    · next hnot =>
      constructor
      · intro h
        cases h
      · intro h
        exact absurd h (hnot n)
  · rw [eachFanPools, eachFanCols_eq]
    rfl
  · rw [eachFanPools, eachFanCols_eq]
    rfl
  · intro hown hfew hcan
    exact eachFanPools_eq_runPools hcols hown hfew hcan hne

/-- `A { pos }` and `B { pos, vel }`, both with a pool. -/
def exTwoShapes : Program where
  archs := [⟨"A", ["pos"], by decide⟩, ⟨"B", ["pos", "vel"], by decide⟩]
  pools := [⟨"A", some 4, false⟩, ⟨"B", some 4, false⟩]
  names_nodup := by decide

theorem kernels_agree_two :
    runPools exTwoShapes ["pos"] = ["A", "B"] ∧
      eachFanPools exTwoShapes ["pos"] = runPools exTwoShapes ["pos"] :=
  ⟨by decide, (kernels_agree exTwoShapes ["pos"] (by decide) (by decide) (by decide)).2.2.2.2
    (by decide) (by decide) (by decide)⟩

/-- A collective over the query `{ pos }` is an error although two shapes have the column. -/
theorem not_sameEverywhere : ¬ ∀ (prog : Program) (cols : List String), cols ≠ [] →
    SameEverywhere prog cols := by
  intro h
  obtain ⟨-, -, -, n, hn, -⟩ := h exTwoShapes ["pos"] (by decide)
  have hnone : collectivePool exTwoShapes ["pos"] = none := by decide
  rw [hnone] at hn
  cases hn

end Arche.Codegen.QueryMatch
