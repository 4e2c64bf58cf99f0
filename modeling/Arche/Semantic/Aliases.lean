import Arche.Lib.Trails
import Arche.Semantic.TypeRenaming

/-!
# Aliases of types and callables

Pass 0 registers the aliases of a program. A type alias is defined once, but for datasheets that
agree; a callable alias is put into its table as it is. Three loops follow the tables:
`resolve_type_alias` with as many links as there are aliases and one more, `resolve_callable_alias`
with 64, and `subtype_check` with 65 for the types a subtype can be used as.

* `Backs` and `Targets` are the links that are declared, in no order.
* A `#file` alias is registered with two dots in its name, which no reference has. It is left out.

1. `aliases_agree_iff`: in a program without an error the loops find the end of each chain, and all
   of it, exactly if no type alias leads back to itself, a callable alias has one target, no chain
   of callable aliases has more than 64 links, and no chain that starts with a subtype has more than
   65.
2. `not_aliases_agree`: `h :: p` and `h :: q` is no error, and `h` stands for the first.
-/

namespace Arche.Semantic.TypeCheck

open Arche.Lib Relation

/-! ## Registration -/

/-- A type alias of the top level. `component` is one that stands in an archetype. -/
structure TypeAliasDecl where
  name : Ident
  backing : QName
  transparent : Bool
  fromDatasheet : Bool
  component : Bool

/-- A type alias in a body. -/
structure LocalAlias where
  name : Ident
  backing : QName
  transparent : Bool

def LocalAlias.decl (d : LocalAlias) : TypeAliasDecl :=
  ⟨d.name, d.backing, d.transparent, false, false⟩

/-- `h :: p` where `p` is a proc, a func or a group of them. -/
structure CallableAlias where
  name : Text
  target : Text

/-- The aliases in the order they are registered. `implemented` are the names of the devices that a
driver's type takes the place of. -/
structure Program where
  implemented : List Ident
  types : List TypeAliasDecl
  locals : List LocalAlias
  callables : List CallableAlias

inductive AliasError
  | typeAliasRedefined (name : Ident)
  | componentRedefined (name : Ident)
  | typeAliasUnknownBacking (name : Ident) (backing : Text)
deriving DecidableEq

structure Tables where
  aliases : List Alias
  errors : List AliasError

def Tables.ctx (t : Tables) : Ctx := ⟨t.aliases, [], [], [], []⟩

def Tables.report (t : Tables) (es : List AliasError) : Tables :=
  { t with errors := t.errors ++ es }

/-- The second definition of a name. -/
def Tables.redefine (t : Tables) (a : Alias) (d : TypeAliasDecl) : Tables :=
  if a.backing.text ≠ d.backing.text then t.report [.typeAliasRedefined d.name]
  else if d.fromDatasheet then t
  else t.report [.componentRedefined d.name]

def findName (t : Tables) (i : Ident) : Option Alias := t.aliases.find? fun a => a.name = i

/-- The name is one of a device that a driver's type takes the place of. -/
def renamedAway (implemented : List Ident) (d : TypeAliasDecl) : Bool :=
  d.fromDatasheet && implemented.contains d.name

/-- `register_type_alias_tiered`. -/
def registerTypeAlias (implemented : List Ident) (t : Tables) (d : TypeAliasDecl) : Tables :=
  if renamedAway implemented d then t
  else match findName t d.name with
    | some a => t.redefine a d
    | none => { t with aliases := t.aliases ++ [⟨d.name, d.backing, d.transparent⟩] }

/-- An inline component looks for the name before. -/
def register (implemented : List Ident) (t : Tables) (d : TypeAliasDecl) : Tables :=
  match d.component, findName t d.name with
  | true, some a => t.redefine a d
  | _, _ => registerTypeAlias implemented t d

/-- The capitalized spellings are `normalize_type_name`. -/
def isPrimitiveTypeName (s : Text) : Bool :=
  isWidthIntName s ||
    ["int", "float", "char", "str", "void", "Int", "Float", "Char", "Str", "Void"].any
      fun n => n.toList == s

/-- What an alias is backed by has to be a type of the language. -/
def unknownBacking (cx : Ctx) (i : Ident) : List AliasError :=
  let b := ((resolveTypeAlias cx i.text).map QName.text).getD i.text
  if isPrimitiveTypeName b || b == "opaque".toList then [] else [.typeAliasUnknownBacking i b]

/-- The end of pass 0. -/
def validate (t : Tables) : Tables :=
  t.report (t.aliases.flatMap fun a => unknownBacking t.ctx a.name)

/-- The device names are forgotten before the bodies are analyzed. -/
def registerLocal (t : Tables) (d : LocalAlias) : Tables :=
  let t' := registerTypeAlias [] t d.decl
  t'.report (unknownBacking t'.ctx d.name)

namespace Program

def tables (p : Program) : Tables :=
  p.locals.foldl registerLocal (validate (p.types.foldl (register p.implemented) ⟨[], []⟩))

def errors (p : Program) : List AliasError := p.tables.errors

def ctx (p : Program) : Ctx := p.tables.ctx

end Program

/-- The table of `register_callable_alias`. -/
def callableTarget (cs : List CallableAlias) (name : Text) : Option Text :=
  (cs.find? fun c => c.name == name).map (·.target)

/-- `resolve_callable_alias`; `none` is NULL. -/
def resolveCallableAlias (cs : List CallableAlias) (name : Text) : Option Text :=
  followed (callableTarget cs) 64 name

/-! ## What it is for -/

def Program.declared (p : Program) : List TypeAliasDecl :=
  p.types.filter (fun d => !renamedAway p.implemented d) ++ p.locals.map LocalAlias.decl

/-- A name, with or without its module, and what it is declared to be backed by. -/
def Backs (p : Program) (a b : Text) : Prop :=
  ∃ d ∈ p.declared, aliasNameMatches d.name a = true ∧ d.backing.text = b

def Targets (p : Program) (a b : Text) : Prop :=
  ∃ c ∈ p.callables, c.name = a ∧ c.target = b

/-- The same declarations in another order. -/
structure Reordered (p q : Program) : Prop where
  implemented : q.implemented = p.implemented
  types : q.types.Perm p.types
  locals : q.locals.Perm p.locals
  callables : q.callables.Perm p.callables

/-- Each name has one chain. In every order the resolution gives its last name, and the check of
subtypes finds all of it. -/
structure Agree (p : Program) : Prop where
  types : ∀ a, ∃ l, OnlyTrail (Backs p) a l ∧ ∀ q, Reordered p q → q.errors = [] →
    (resolveTypeAlias q.ctx a).map QName.text = l.getLast?
  callables : ∀ a, ∃ l, OnlyTrail (Targets p) a l ∧ ∀ q, Reordered p q → q.errors = [] →
    resolveCallableAlias q.callables a = l.getLast?
  walk : ∀ g e, isDistinct p.ctx g = true →
    (chainReaches p.ctx e 65 (aliasBackingStep p.ctx g) = true ↔ TransGen (Backs p) g e)

structure Fits (p : Program) : Prop where
  acyclic : ∀ a, ¬ TransGen (Backs p) a a
  oneTarget : ∀ c ∈ p.callables, ∀ c' ∈ p.callables, c.name = c'.name → c.target = c'.target
  callableLinks : ∀ a l, List.IsChain (Targets p) (a :: l) → l.length ≤ 64
  typeLinks : ∀ g l, isDistinct p.ctx g = true → List.IsChain (Backs p) (g :: l) → l.length ≤ 65

/-! ## What is registered -/

/-- The table holds the aliases `ds`, each name once. -/
structure Holds (t : Tables) (ds : List TypeAliasDecl) : Prop where
  nodup : (t.aliases.map (·.name)).Nodup
  sound : ∀ a ∈ t.aliases, ∃ d ∈ ds, d.name = a.name ∧ d.backing.text = a.backing.text
  complete : ∀ d ∈ ds, ∃ a ∈ t.aliases, a.name = d.name ∧ a.backing.text = d.backing.text

variable {t : Tables} {d : TypeAliasDecl} {ds : List TypeAliasDecl} {implemented : List Ident}

theorem findName_some {i : Ident} {a : Alias} (h : findName t i = some a) :
    a ∈ t.aliases ∧ a.name = i :=
  ⟨List.mem_of_find?_eq_some h, by simpa using List.find?_some h⟩

theorem findName_none {i : Ident} (h : findName t i = none) : ∀ a ∈ t.aliases, a.name ≠ i := by
  intro a ha
  simpa using List.find?_eq_none.mp h a ha

theorem Holds.add_known {a : Alias} (h : Holds t ds) (ha : a ∈ t.aliases) (hname : a.name = d.name)
    (hbacking : a.backing.text = d.backing.text) : Holds t (ds ++ [d]) where
  nodup := h.nodup
  sound := fun b hb =>
    have ⟨e, he, hsame⟩ := h.sound b hb
    ⟨e, List.mem_append_left _ he, hsame⟩
  complete := by
    intro e he
    rcases List.mem_append.mp he with he | he
    · exact h.complete e he
    · obtain rfl := List.mem_singleton.mp he
      exact ⟨a, ha, hname, hbacking⟩

theorem Holds.add_new (h : Holds t ds) (hnew : ∀ a ∈ t.aliases, a.name ≠ d.name) :
    Holds { t with aliases := t.aliases ++ [⟨d.name, d.backing, d.transparent⟩] } (ds ++ [d]) where
  nodup := by
    rw [List.map_append, List.nodup_append]
    refine ⟨h.nodup, List.nodup_singleton _, ?_⟩
    rintro _ hi _ hj
    obtain ⟨a, ha, rfl⟩ := List.mem_map.mp hi
    obtain rfl := List.mem_singleton.mp hj
    exact hnew a ha
  sound := by
    intro b hb
    rcases List.mem_append.mp hb with hb | hb
    · obtain ⟨e, he, hsame⟩ := h.sound b hb
      exact ⟨e, List.mem_append_left _ he, hsame⟩
    · obtain rfl := List.mem_singleton.mp hb
      exact ⟨d, List.mem_append_right _ (List.mem_singleton_self d), rfl, rfl⟩
  complete := by
    intro e he
    rcases List.mem_append.mp he with he | he
    · obtain ⟨a, ha, hsame⟩ := h.complete e he
      exact ⟨a, List.mem_append_left _ ha, hsame⟩
    · obtain rfl := List.mem_singleton.mp he
      exact ⟨_, List.mem_append_right _ (List.mem_singleton_self _), rfl, rfl⟩

/-- Only an agreeing definition from a datasheet is no error, and it changes nothing. -/
theorem redefine_ok {a : Alias} (h : (t.redefine a d).errors = []) :
    t.redefine a d = t ∧ a.backing.text = d.backing.text := by
  unfold Tables.redefine at h ⊢
  split at h
  · exact absurd (List.append_eq_nil_iff.mp h).2 (List.cons_ne_nil _ _)
  · next hbacking =>
    rw [if_neg hbacking]
    split at h
    · next hds => exact ⟨if_pos hds, not_not.mp hbacking⟩
    · exact absurd (List.append_eq_nil_iff.mp h).2 (List.cons_ne_nil _ _)

/-- What one registration does if it reports nothing. -/
theorem registerTypeAlias_ok (h : (registerTypeAlias implemented t d).errors = []) :
    t.errors = [] ∧
      (Holds t ds → Holds (registerTypeAlias implemented t d)
        (ds ++ [d].filter fun d => !renamedAway implemented d)) := by
  unfold registerTypeAlias at h ⊢
  by_cases hgone : renamedAway implemented d = true
  · rw [if_pos hgone] at h ⊢
    exact ⟨h, by simp [hgone]⟩
  · rw [if_neg hgone] at h ⊢
    have hlive : [d].filter (fun d => !renamedAway implemented d) = [d] := by simp [hgone]
    rw [hlive]
    cases hfind : findName t d.name with
    | none => exact ⟨by simpa [hfind] using h, fun ht => ht.add_new (findName_none hfind)⟩
    | some a =>
      simp only [hfind] at h
      obtain ⟨hsame, hbacking⟩ := redefine_ok h
      obtain ⟨ha, hname⟩ := findName_some hfind
      rw [hsame] at h
      exact ⟨h, fun ht => by simpa only [hsame] using ht.add_known ha hname hbacking⟩

theorem register_ok (h : (register implemented t d).errors = []) :
    t.errors = [] ∧
      (Holds t ds → Holds (register implemented t d)
        (ds ++ [d].filter fun d => !renamedAway implemented d)) := by
  unfold register at h ⊢
  split at h
  · next a _ hfind =>
    obtain ⟨hsame, hbacking⟩ := redefine_ok h
    obtain ⟨ha, hname⟩ := findName_some hfind
    rw [hsame] at h ⊢
    refine ⟨h, fun ht => ?_⟩
    by_cases hgone : renamedAway implemented d = true
    · simpa [hgone] using ht
    · simpa [hgone] using ht.add_known ha hname hbacking
  · exact registerTypeAlias_ok h

theorem registerAll_ok (rest : List TypeAliasDecl)
    (h : (rest.foldl (register implemented) t).errors = []) :
    t.errors = [] ∧
      (Holds t ds → Holds (rest.foldl (register implemented) t)
        (ds ++ rest.filter fun d => !renamedAway implemented d)) := by
  induction rest generalizing t ds with
  | nil => exact ⟨h, fun ht => by simpa using ht⟩
  | cons d rest ih =>
    have hone := (@ih _ [] h).1
    obtain ⟨ht, hstep⟩ : t.errors = [] ∧ (Holds t ds → _) := register_ok hone
    refine ⟨ht, fun hds => ?_⟩
    have hrun := (ih h).2 (hstep hds)
    rwa [List.append_assoc, ← List.filter_append, List.singleton_append] at hrun

theorem Holds.report {es : List AliasError} (h : Holds t ds) : Holds (t.report es) ds :=
  ⟨h.nodup, h.sound, h.complete⟩

theorem registerLocals_ok (rest : List LocalAlias)
    (h : (rest.foldl registerLocal t).errors = []) :
    t.errors = [] ∧
      (Holds t ds → Holds (rest.foldl registerLocal t) (ds ++ rest.map LocalAlias.decl)) := by
  induction rest generalizing t ds with
  | nil => exact ⟨h, fun ht => by simpa using ht⟩
  | cons d rest ih =>
    have hone : (registerTypeAlias [] t d.decl).errors = [] :=
      (List.append_eq_nil_iff.mp (@ih _ [] h).1).1
    obtain ⟨ht, hstep⟩ : t.errors = [] ∧ (Holds t ds → _) := registerTypeAlias_ok hone
    refine ⟨ht, fun hds => ?_⟩
    have hlive : [d.decl].filter (fun d => !renamedAway [] d) = [d.decl] := rfl
    have hheld := hstep hds
    rw [hlive] at hheld
    have hreported : Holds (registerLocal t d) (ds ++ [d.decl]) := hheld.report
    have hrun := (ih h).2 hreported
    rwa [List.append_assoc, List.singleton_append, ← List.map_cons] at hrun

/-- The table of a program without an error is what it declares. -/
theorem holds_declared {p : Program} (h : p.errors = []) : Holds p.tables p.declared := by
  obtain ⟨hvalid, hlocals⟩ := registerLocals_ok p.locals h
  have htypes := (List.append_eq_nil_iff.mp hvalid).1
  have hempty : Holds ⟨[], []⟩ [] :=
    ⟨List.nodup_nil, fun _ ha => (by cases ha), fun _ hd => (by cases hd)⟩
  have htop := (registerAll_ok p.types htypes).2 hempty
  rw [List.nil_append] at htop
  exact hlocals htop.report

/-! ## The links of the tables -/

/-- The step of all walks over the table of type aliases. -/
def backingText (cx : Ctx) (s : Text) : Option Text := (aliasBackingStep cx s).map QName.text

theorem findAlias_some {cx : Ctx} {s : Text} {a : Alias} (h : findAlias cx s = some a) :
    a ∈ cx.aliases ∧ aliasNameMatches a.name s = true :=
  ⟨List.mem_of_find?_eq_some h, List.find?_some (p := fun a : Alias => aliasNameMatches a.name s) h⟩

theorem backingText_iff {p : Program} (h : p.errors = []) (a b : Text) :
    backingText p.ctx a = some b ↔ Backs p a b := by
  have hheld := holds_declared h
  constructor
  · intro hstep
    obtain ⟨q, hq, rfl⟩ := Option.map_eq_some_iff.mp hstep
    obtain ⟨x, hx, rfl⟩ := Option.map_eq_some_iff.mp hq
    obtain ⟨hmem, hmatch⟩ := findAlias_some hx
    obtain ⟨d, hd, hname, hbacking⟩ := hheld.sound x hmem
    exact ⟨d, hd, hname ▸ hmatch, hbacking⟩
  · rintro ⟨d, hd, hmatch, rfl⟩
    obtain ⟨x, hx, hname, hbacking⟩ := hheld.complete d hd
    rw [← hname] at hmatch
    obtain ⟨y, hy⟩ : ∃ y, findAlias p.ctx a = some y := by
      rw [← Option.isSome_iff_exists]
      exact List.find?_isSome.mpr ⟨x, hx, hmatch⟩
    obtain ⟨hmem, hmatchY⟩ := findAlias_some hy
    have hsame : y.name = x.name := by
      rw [← Ident.text_inj, ← aliasNameMatches_iff.mp hmatchY, ← aliasNameMatches_iff.mp hmatch]
    have hyx : y = x := List.inj_on_of_nodup_map hheld.nodup hmem hx hsame
    rw [backingText, aliasBackingStep, hy, hyx]
    exact congrArg some hbacking

theorem callableTarget_iff {cs : List CallableAlias}
    (hone : ∀ c ∈ cs, ∀ c' ∈ cs, c.name = c'.name → c.target = c'.target) (a b : Text) :
    callableTarget cs a = some b ↔ ∃ c ∈ cs, c.name = a ∧ c.target = b := by
  constructor
  · intro h
    obtain ⟨c, hc, rfl⟩ := Option.map_eq_some_iff.mp h
    exact ⟨c, List.mem_of_find?_eq_some hc, by simpa using List.find?_some hc, rfl⟩
  · rintro ⟨c, hc, rfl, rfl⟩
    obtain ⟨c', hc'⟩ : ∃ c', cs.find? (fun x => x.name == c.name) = some c' := by
      rw [← Option.isSome_iff_exists]
      exact List.find?_isSome.mpr ⟨c, hc, beq_self_eq_true _⟩
    have hname : c'.name = c.name := by simpa using List.find?_some hc'
    rw [callableTarget, hc']
    exact congrArg some (hone c' (List.mem_of_find?_eq_some hc') c hc hname)

/-! ## The walks -/

variable {cx : Ctx}

theorem resolveFrom_text (n : Nat) (s : Text) :
    (resolveFrom cx n s).map QName.text = followed (backingText cx) n s := by
  induction n generalizing s with
  | zero => rfl
  | succ n ih =>
    rw [resolveFrom, followed, backingText, aliasBackingStep]
    cases findAlias cx s with
    | none => rfl
    | some a =>
      have hrest := ih a.backing.text
      simp only [Option.map_some, ← hrest]
      cases resolveFrom cx n a.backing.text <;> rfl

theorem chainReaches_iff {g e : Text} {l : List Text}
    (h : Trail (fun a b => backingText cx a = some b) g l) (n : Nat) :
    chainReaches cx e n (aliasBackingStep cx g) = true ↔ e ∈ l.take n := by
  induction h generalizing n with
  | @done a hend =>
    have hnone : aliasBackingStep cx a = none := by
      cases hs : aliasBackingStep cx a with
      | none => rfl
      | some q => exact absurd (congrArg (Option.map QName.text) hs) (hend q.text)
    rw [hnone, List.take_nil]
    cases n <;> simp [chainReaches]
  | @link a b l hb _ ih =>
    obtain ⟨q, hq, rfl⟩ := Option.map_eq_some_iff.mp hb
    cases n with
    | zero => simp [chainReaches]
    | succ n =>
      rw [hq, chainReaches, Bool.or_eq_true, ih, beq_iff_eq, List.take_succ_cons, List.mem_cons,
        eq_comm]

theorem resolveTypeAlias_eq {s : Text} {l : List Text}
    (h : Trail (fun a b => backingText cx a = some b) s l) (hlen : l.length ≤ cx.aliases.length) :
    (resolveTypeAlias cx s).map QName.text = l.getLast? := by
  rw [resolveTypeAlias, resolveFrom_text]
  exact (followed_eq_last_iff h _).mpr (Nat.le_succ_of_le hlen)

theorem backingText_mem {a b : Text} (h : backingText cx a = some b) :
    b ∈ cx.aliases.map fun x => x.backing.text := by
  obtain ⟨q, hq, rfl⟩ := Option.map_eq_some_iff.mp h
  obtain ⟨x, hx, rfl⟩ := Option.map_eq_some_iff.mp hq
  exact List.mem_map_of_mem (findAlias_some hx).1

/-! ## In any order -/

variable {p q : Program}

theorem Reordered.backs (h : Reordered p q) : Backs q = Backs p := by
  funext a b
  have hmem : ∀ d, d ∈ q.declared ↔ d ∈ p.declared := by
    intro d
    rw [Program.declared, Program.declared, List.mem_append, List.mem_append, List.mem_filter,
      List.mem_filter, h.types.mem_iff, h.implemented, (h.locals.map LocalAlias.decl).mem_iff]
  simp only [Backs, hmem]

theorem Reordered.targets (h : Reordered p q) : Targets q = Targets p := by
  funext a b
  simp only [Targets, h.callables.mem_iff]

theorem Reordered.refl (p : Program) : Reordered p p := ⟨rfl, .refl _, .refl _, .refl _⟩

theorem Reordered.backing_eq (h : Reordered p q) (hok : q.errors = []) :
    (fun a b => backingText q.ctx a = some b) = Backs p := by
  funext a b
  rw [← h.backs]
  exact propext (backingText_iff hok a b)

theorem backs_fun (hok : p.errors = []) (a b c : Text) (hb : Backs p a b) (hc : Backs p a c) :
    b = c :=
  table_fun a b c ((backingText_iff hok a b).mpr hb) ((backingText_iff hok a c).mpr hc)

theorem Fits.types (hok : p.errors = []) (h : Fits p) (a : Text) :
    ∃ l, OnlyTrail (Backs p) a l ∧ ∀ q, Reordered p q → q.errors = [] →
      (resolveTypeAlias q.ctx a).map QName.text = l.getLast? := by
  have hends : ∀ q, Reordered p q → q.errors = [] →
      ∃ l, Trail (Backs p) a l ∧ l.length ≤ q.ctx.aliases.length := by
    intro q hq hqok
    have hlink := hq.backing_eq hqok
    obtain ⟨l, hl, hlen⟩ := exists_trail h.acyclic
      (fun x y hxy => by rw [← hlink] at hxy; exact backingText_mem hxy) a
    rw [List.length_map] at hlen
    exact ⟨l, hl, hlen⟩
  obtain ⟨l, hl, -⟩ := hends p (.refl p) hok
  refine ⟨l, hl.only (backs_fun hok), fun q hq hqok => ?_⟩
  obtain ⟨l', hl', hlen⟩ := hends q hq hqok
  obtain rfl := hl'.unique (backs_fun hok) hl
  rw [← hq.backing_eq hqok] at hl'
  exact resolveTypeAlias_eq hl' hlen

theorem Fits.callables (h : Fits p) (a : Text) :
    ∃ l, OnlyTrail (Targets p) a l ∧ ∀ q, Reordered p q → q.errors = [] →
      resolveCallableAlias q.callables a = l.getLast? := by
  have hlink : ∀ q, Reordered p q →
      (fun x y => callableTarget q.callables x = some y) = Targets p := by
    intro q hq
    funext x y
    rw [← hq.targets]
    refine propext (callableTarget_iff (fun c hc c' hc' => ?_) x y)
    exact h.oneTarget c (hq.callables.mem_iff.mp hc) c' (hq.callables.mem_iff.mp hc')
  rcases exists_trail_or_path (Targets p) 64 a with ⟨l, hl, hlen⟩ | ⟨l, hl, hlen⟩
  · refine ⟨l, ?_, fun q hq _ => ?_⟩
    · have hfun := table_fun (f := callableTarget p.callables)
      exact hl.only fun x y z hy hz => by
        rw [← hlink p (.refl p)] at hy hz
        exact hfun x y z hy hz
    · rw [← hlink q hq] at hl
      exact (followed_eq_last_iff hl 63).mpr hlen
  · exact absurd (h.callableLinks a l hl) (by omega)

theorem Fits.walk (hok : p.errors = []) (h : Fits p) (g e : Text) (hg : isDistinct p.ctx g = true) :
    chainReaches p.ctx e 65 (aliasBackingStep p.ctx g) = true ↔ TransGen (Backs p) g e := by
  rcases exists_trail_or_path (Backs p) 65 g with ⟨l, hl, hlen⟩ | ⟨l, hl, hlen⟩
  · rw [← hl.mem_iff (backs_fun hok)]
    rw [← (Reordered.refl p).backing_eq hok] at hl
    rw [chainReaches_iff hl, List.take_of_length_le hlen]
  · exact absurd (h.typeLinks g l hg hl) (by omega)

theorem Agree.fits (hok : p.errors = []) (h : Agree p) : Fits p where
  acyclic := fun a =>
    have ⟨l, hl, _⟩ := h.types a
    ((hl l).mpr rfl).acyclic (backs_fun hok)
  oneTarget := fun c hc c' hc' hname =>
    link_unique (fun a => have ⟨l, hl, _⟩ := h.callables a; ⟨l, hl⟩) ⟨c, hc, rfl, rfl⟩
      ⟨c', hc', hname.symm, rfl⟩
  callableLinks := by
    intro a path hpath
    have hfun : ∀ a b c, Targets p a b → Targets p a c → b = c := fun a b c hb hc =>
      link_unique (fun a => have ⟨l, hl, _⟩ := h.callables a; ⟨l, hl⟩) hb hc
    obtain ⟨l, hl, hres⟩ := h.callables a
    have htrail := (hl l).mpr rfl
    have hlink : (fun x y => callableTarget p.callables x = some y) = Targets p := by
      funext x y
      refine propext (callableTarget_iff (fun c hc c' hc' hname => ?_) x y)
      exact hfun c.name _ _ ⟨c, hc, rfl, rfl⟩ ⟨c', hc', hname.symm, rfl⟩
    refine Nat.le_trans (htrail.length_path_le hfun hpath) ?_
    rw [← hlink] at htrail
    exact (followed_eq_last_iff htrail 63).mp (hres p (.refl p) hok)
  typeLinks := by
    intro g path hg hpath
    obtain ⟨l, hl, -⟩ := h.types g
    have htrail := (hl l).mpr rfl
    refine Nat.le_trans (htrail.length_path_le (backs_fun hok) hpath) ?_
    refine (take_covers_iff (htrail.nodup (backs_fun hok)) 65).mp fun e he => ?_
    have hreach := (h.walk g e hg).mpr ((htrail.mem_iff (backs_fun hok)).mp he)
    rw [← (Reordered.refl p).backing_eq hok] at htrail
    exact (chainReaches_iff htrail 65).mp hreach

/-! ## The theorem -/

theorem aliases_agree_iff (p : Program) (hok : p.errors = []) : Agree p ↔ Fits p :=
  ⟨fun h => h.fits hok, fun h => ⟨h.types hok, h.callables, h.walk hok⟩⟩

/-- `h :: p` and `h :: q`, for two procs. -/
def twoTargets : Program where
  implemented := []
  types := [⟨⟨"int".toList, isName_int⟩, .word "i32".toList isName_i32, true, false, false⟩]
  locals := []
  callables := [⟨"h".toList, "p".toList⟩, ⟨"h".toList, "q".toList⟩]

theorem not_aliases_agree : twoTargets.errors = [] ∧ ¬ Agree twoTargets := by
  refine ⟨by decide, fun h => ?_⟩
  have hfits := h.fits (by decide)
  exact absurd (hfits.oneTarget ⟨"h".toList, "p".toList⟩ (by simp [twoTargets])
    ⟨"h".toList, "q".toList⟩ (by simp [twoTargets]) rfl) (by decide)

/-- `meters :: alias int` and `run :: start`. -/
def oneTarget : Program where
  implemented := []
  types := [⟨⟨"int".toList, isName_int⟩, .word "i32".toList isName_i32, true, false, false⟩,
    ⟨⟨"meters".toList, isName_meters⟩, .word "int".toList isName_int, false, false, false⟩]
  locals := []
  callables := [⟨"run".toList, "start".toList⟩]

theorem aliases_agree_iff_oneTarget : oneTarget.errors = [] ∧ (Agree oneTarget ↔ Fits oneTarget) :=
  ⟨by decide, aliases_agree_iff oneTarget (by decide)⟩

end Arche.Semantic.TypeCheck
