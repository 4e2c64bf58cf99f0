import Arche.Codegen.WriteFields

/-!
# Entity inserts

`insert(Name { field: value, … })`. The values of the literal go to the columns by name: a column
takes the field of its name, or else a member of the array literal of the first field `f` with `f_`
in front of the column's name. Which member is how many columns before it begin with `f_`. The
arguments are collected in a table of 32 and passed in the order of the columns.

* A tuple group of the shape is flattened: member `s` of `pos` is the column `pos_s`. A `Slot` is a
  column with the group it comes from.
* A value of the literal is an occurrence: a whole field, or a member of the array literal of a
  field that is named as a group. `writes` says for which column.
* `Placed`: every column gets its value and no other, every value is evaluated once, and a row that
  is inserted has the values in its columns.

1. `columnValue_iff`: when a column takes exactly what is written for it.
2. `placed_iff`: at most 32 columns, names that do not get into each other's way, and no numeric
   array columns. -/

namespace Arche.Codegen.EntityInsert

open Arche.Codegen

abbrev Text := List Char

/-! ## Shapes -/

structure Col where
  name : Text
  type : Codegen.Column

/-- `"%s_%s"`. -/
def member (base : Text) (type : Codegen.Column) (suffix : Text) : Col :=
  ⟨base ++ '_' :: suffix, type⟩

/-- A field of an archetype: a column, or a tuple group with the type of its members. -/
inductive Field where
  | column (c : Col)
  | group (base : Text) (suffixes : List Text) (type : Codegen.Column)

def Field.columns : Field → List Col
  | .column c => [c]
  | .group base suffixes type => suffixes.map (member base type)

/-- The columns of the flattened archetype. -/
def columns (fields : List Field) : List Col := fields.flatMap Field.columns

def shapeOf (fields : List Field) : Shape :=
  ⟨(columns fields).length, fun i => (columns fields)[i].type⟩

/-- Where a column comes from: the columns before its group, the name of the group, its place in it.
-/
structure Lane where
  outer : List Col
  base : Text
  index : Nat

/-- A column with those before it. -/
structure Slot where
  before : List Col
  col : Col
  lane : Option Lane

def Field.slots (before : List Col) : Field → List Slot
  | .column c => [⟨before, c, none⟩]
  | .group base suffixes type => suffixes.zipIdx.map fun s =>
      ⟨before ++ (suffixes.take s.2).map (member base type), member base type s.1,
        some ⟨before, base, s.2⟩⟩

def slotsFrom (before : List Col) : List Field → List Slot
  | [] => []
  | f :: fs => f.slots before ++ slotsFrom (before ++ f.columns) fs

def slots (fields : List Field) : List Slot := slotsFrom [] fields

def isGroup (fields : List Field) (name : Text) : Bool := fields.any fun
  | .column _ => false
  | .group base _ _ => base == name

/-! ## Entity literals -/

/-- An expression, an `ARRAY_LITERAL` by its elements. -/
inductive Value (E : Type) where
  | other (e : E)
  | arrayLiteral (elements : List E)

abbrev EntityLit (E : Type) := List (Text × Value E)

variable {E σ : Type}

/-- `strncmp(col, fn, fl) == 0 && col[fl] == '_'`. -/
def covers (fn col : Text) : Bool := (fn ++ ['_']).isPrefixOf col

/-- The checks of an entity literal: every field is a column, every column has a field. Only 64
fields are looked at. -/
def accepted (fields : List Field) (lit : EntityLit E) : Bool :=
  let names := (lit.take 64).map Prod.fst
  let cols := (columns fields).map Col.name
  (names.all fun f => cols.any fun c => c == f || covers f c) &&
    cols.all fun c => names.any fun f => c == f || covers f c

/-- A value of the literal: a whole field, or an element of one. -/
structure Occ where
  field : Nat
  element : Option Nat
  deriving DecidableEq

/-! ## Code generation -/

/-- `elem`. -/
def elemIndex (before : List Col) (fn : Text) : Nat := before.countP fun c => covers fn c.name

/-- The value that a column takes. -/
def columnValue (lit : EntityLit E) (before : List Col) (col : Text) : Option (Occ × Value E) :=
  match lit.findIdx? fun f => f.1 == col with
  | some i => (lit[i]?).map fun f => (⟨i, none⟩, f.2)
  | none =>
    (lit.findIdx? fun f => covers f.1 col).bind fun i =>
      match lit[i]? with
      | some (fn, .arrayLiteral es) =>
        (es[elemIndex before fn]?).map fun e => (⟨i, some (elemIndex before fn)⟩, .other e)
      | _ => none

/-- What an expression comes to: a word, and the pointer where a pointer is meant. -/
structure Operand (S : Shape) where
  value : Int
  source : Source S

/-- `"0"`. -/
def Operand.zero {S : Shape} : Operand S := ⟨0, .outside fun _ => 0⟩

/-- The loop over the columns, with the occurrence that was evaluated for an argument. -/
def emitArgs {S : Shape} (lit : EntityLit E) (eval : Value E → σ → Operand S × σ) :
    List Col → List Col → Nat → σ → List (Option Occ × Operand S)
  | _, [], _, _ => []
  | before, c :: cs, argCount, s =>
    if argCount < 32 then
      match columnValue lit before c.name with
      | some (o, v) =>
        (some o, (eval v s).1) :: emitArgs lit eval (before ++ [c]) cs (argCount + 1) (eval v s).2
      | none => (none, .zero) :: emitArgs lit eval (before ++ [c]) cs (argCount + 1) s
    else []

/-- The arguments of the call. The helper has one parameter a column. -/
def callArgs {S : Shape} (args : List (Option Occ × Operand S)) : Args S where
  value c := BitVec.ofInt _ (((args[c.val]?).map fun a => a.2.value).getD 0)
  source c := ((args[c.val]?).map fun a => a.2.source).getD (.outside fun _ => 0)

/-! ## What is written where -/

/-- The field gives the members of a tuple group. -/
def byMembers (fields : List Field) : Text × Value E → Bool
  | (fn, .arrayLiteral _) => isGroup fields fn
  | (_, .other _) => false

/-- The values of a literal. -/
def occurrences (fields : List Field) (lit : EntityLit E) : List Occ :=
  lit.zipIdx.flatMap fun f =>
    match byMembers fields f.1, f.1.2 with
    | true, .arrayLiteral es => (List.range es.length).map fun k => ⟨f.2, some k⟩
    | _, _ => [⟨f.2, none⟩]

/-- The occurrence is written for this column: its field has the name of the column, or it is the
member of the group in the place of the column. -/
def writes (fields : List Field) (lit : EntityLit E) (o : Occ) (slot : Slot) : Bool :=
  match lit[o.field]?, o.element with
  | some f, none => !byMembers fields f && f.1 == slot.col.name
  | some (fn, .arrayLiteral es), some k =>
    byMembers fields (fn, Value.arrayLiteral es) && k < es.length &&
      slot.lane.any fun l => l.base == fn && l.index == k
  | _, _ => false

/-- A column has the value of an operand in all its elements, or as a text the bytes at its pointer.
-/
def HoldsValue {S : Shape} {cap : Nat} (p : Pool S.Row cap) (c : Fin S.ncol) (op : Operand S)
    (v : Vector (S.Elem c) (S.col c).perRow) : Prop :=
  if (S.col c).isText then
    v = paddedText c (textFrom (p.loadText op.source) 0 ((S.col c).perRow - 1))
  else ∀ j (h : j < (S.col c).perRow), v[j] = BitVec.ofInt _ op.value

/-- Every column gets what is written for it, every value is evaluated once, and the columns of a
row that is inserted hold their values. -/
structure Placed (fields : List Field) (lit : EntityLit E)
    (args : List (Option Occ × Operand (shapeOf fields))) : Prop where
  arguments : args.length = (columns fields).length
  column : ∀ (i : Nat) (slot : Slot) (a : Option Occ × Operand (shapeOf fields)),
    (slots fields)[i]? = some slot → args[i]? = some a →
    ∀ o, a.1 = some o ↔ writes fields lit o slot = true
  once : List.Perm (args.filterMap Prod.fst) (occurrences fields lit)
  row : ∀ {cap : Nat} (p : Pool (shapeOf fields).Row cap) (evictSlot : Int)
    (o : Outcome (shapeOf fields).Row cap), archeInsertArgs p (callArgs args) evictSlot = some o →
    o.ok = true →
    (∀ slot, p.takenSlot evictSlot = some slot → (callArgs args).Apart p slot) →
    ∃ (slot : Nat) (row : (shapeOf fields).Row), o.slot = some (slot : Int) ∧
      o.pool.rows[slot]? = some row ∧
      ∀ (c : Fin (shapeOf fields).ncol) (occ : Occ) (op : Operand (shapeOf fields)),
        args[c.val]? = some (some occ, op) → HoldsValue p c op (row c)

/-- An insert of the literal, whatever its expressions come to. -/
def PlacedAlways (fields : List Field) (lit : EntityLit E) : Prop :=
  ∀ {σ : Type} (eval : Value E → σ → Operand (shapeOf fields) × σ) (s : σ),
    Placed fields lit (emitArgs lit eval [] (columns fields) 0 s)

/-! ## The condition -/

/-- The first field of the column's name gives no members of a group. The field that is written for
a member is the first whose name and `_` stand in front of the column's, and no column before the
group begins with its name and `_`. An array literal that reaches a column without a value has no
element for it. -/
structure Slot.Clear (fields : List Field) (lit : EntityLit E) (slot : Slot) : Prop where
  single : ∀ o o', writes fields lit o slot = true → writes fields lit o' slot = true → o = o'
  name : ∀ i f, lit.findIdx? (fun f => f.1 == slot.col.name) = some i → lit[i]? = some f →
    byMembers fields f = false
  first : ∀ i k, writes fields lit ⟨i, some k⟩ slot = true →
    (∀ j f, j < i → lit[j]? = some f → covers f.1 slot.col.name = false) ∧
    ∀ l, slot.lane = some l → ∀ c ∈ l.outer, covers l.base c.name = false
  empty : (∀ o, writes fields lit o slot = false) → ∀ i fn es,
    lit.findIdx? (fun f => covers f.1 slot.col.name) = some i →
    lit[i]? = some (fn, .arrayLiteral es) → es.length ≤ elemIndex slot.before fn

structure WellNamed (fields : List Field) (lit : EntityLit E) : Prop where
  table : (columns fields).length ≤ 32
  values : ∀ o ∈ occurrences fields lit, (slots fields).countP (writes fields lit o) = 1
  clear : ∀ slot ∈ slots fields, slot.Clear fields lit
  scalars : ∀ slot ∈ slots fields, ∀ o, writes fields lit o slot = true →
    slot.col.type.perRow ≤ 1 ∨ slot.col.type.isText = true

/-! ## Slots -/

/-- The columns of a list, each with those before it. -/
def withBefore (before : List Col) : List Col → List (List Col × Col)
  | [] => []
  | c :: cs => (before, c) :: withBefore (before ++ [c]) cs

theorem withBefore_append (before xs ys : List Col) :
    withBefore before (xs ++ ys) = withBefore before xs ++ withBefore (before ++ xs) ys := by
  induction xs generalizing before with
  | nil => simp [withBefore]
  | cons x xs ih => simp [withBefore, ih]

theorem members_before (before : List Col) (base : Text) (type : Codegen.Column)
    (done suffixes : List Text) :
    (suffixes.zipIdx done.length).map (fun s =>
      (before ++ ((done ++ suffixes).take s.2).map (member base type), member base type s.1)) =
      withBefore (before ++ done.map (member base type)) (suffixes.map (member base type)) := by
  induction suffixes generalizing done with
  | nil => rfl
  | cons x xs ih =>
    have hnext := ih (done ++ [x])
    rw [List.length_append, List.length_singleton] at hnext
    simp only [List.append_assoc, List.singleton_append, List.map_append, List.map_cons,
      List.map_nil] at hnext
    rw [List.zipIdx_cons, List.map_cons, List.map_cons, withBefore, List.append_assoc, ← hnext]
    simp

theorem slotsFrom_before (fs : List Field) (before : List Col) :
    (slotsFrom before fs).map (fun s => (s.before, s.col)) = withBefore before (columns fs) := by
  induction fs generalizing before with
  | nil => rfl
  | cons f fs ih =>
    have hcols : columns (f :: fs) = f.columns ++ columns fs := List.flatMap_cons
    rw [slotsFrom, List.map_append, ih, hcols, withBefore_append]
    congr 1
    cases f with
    | column c => rfl
    | group base suffixes type =>
      have hmembers := members_before before base type [] suffixes
      simp only [List.length_nil, List.nil_append, List.map_nil, List.append_nil] at hmembers
      rw [Field.slots, List.map_map, Field.columns, ← hmembers]
      rfl

theorem length_slots (fields : List Field) : (slots fields).length = (columns fields).length := by
  have hlen : ∀ (cs before : List Col), (withBefore before cs).length = cs.length := by
    intro cs
    induction cs with
    | nil => intro; rfl
    | cons c cs ih => intro before; rw [withBefore, List.length_cons, ih, List.length_cons]
  rw [slots, ← List.length_map (f := fun s : Slot => (s.before, s.col)), slotsFrom_before, hlen]

theorem covers_member (base suffix : Text) : covers base (base ++ '_' :: suffix) = true := by
  rw [covers, List.isPrefixOf_iff_prefix]
  exact ⟨suffix, by simp⟩

/-- A member of a group begins with its name, and so do the members before it. -/
theorem lane_spec {fs : List Field} {before : List Col} {slot : Slot} {l : Lane}
    (hmem : slot ∈ slotsFrom before fs) (hlane : slot.lane = some l) :
    covers l.base slot.col.name = true ∧
      elemIndex slot.before l.base = elemIndex l.outer l.base + l.index := by
  induction fs generalizing before with
  | nil => cases hmem
  | cons f fs ih =>
    rcases List.mem_append.mp hmem with hmem | hmem
    · cases f with
      | column c =>
        rw [List.mem_singleton.mp hmem] at hlane
        cases hlane
      | group base suffixes type =>
        obtain ⟨⟨suffix, k⟩, hs, rfl⟩ := List.mem_map.mp hmem
        cases hlane
        have hk := (List.mem_zipIdx' hs).1
        refine ⟨covers_member base suffix, ?_⟩
        have hall : elemIndex ((suffixes.take k).map (member base type)) base = k := by
          rw [elemIndex, List.countP_eq_length.mpr, List.length_map, List.length_take,
            Nat.min_eq_left hk.le]
          intro c hc
          obtain ⟨t, -, rfl⟩ := List.mem_map.mp hc
          exact covers_member base t
        dsimp only
        rw [elemIndex, List.countP_append, ← elemIndex, ← elemIndex, hall]
    · exact ih hmem

/-! ## One column -/

/-- The occurrence that a column takes. -/
def picked (lit : EntityLit E) (slot : Slot) : Option Occ :=
  (columnValue lit slot.before slot.col.name).map Prod.fst

section Column

variable {fields : List Field} {lit : EntityLit E} {slot : Slot}

theorem picked_named {i : Nat} (h : lit.findIdx? (fun f => f.1 == slot.col.name) = some i) :
    picked lit slot = some ⟨i, none⟩ ∧ ∃ v, lit[i]? = some (slot.col.name, v) := by
  obtain ⟨hlt, hname, -⟩ := List.findIdx?_eq_some_iff_getElem.mp h
  have hat : lit[i]? = some lit[i] := List.getElem?_eq_getElem hlt
  refine ⟨?_, lit[i].2, ?_⟩
  · rw [picked, columnValue, h]
    dsimp only
    rw [hat]
    rfl
  · rw [hat, ← beq_iff_eq.mp hname]

/-- A column that is not named takes an element of the first field that covers it. -/
theorem picked_unnamed (h : lit.findIdx? (fun f => f.1 == slot.col.name) = none) (o : Occ) :
    picked lit slot = some o ↔ ∃ fn es, lit.findIdx? (fun f => covers f.1 slot.col.name) =
      some o.field ∧ lit[o.field]? = some (fn, .arrayLiteral es) ∧
      elemIndex slot.before fn < es.length ∧ o.element = some (elemIndex slot.before fn) := by
  rw [picked, columnValue, h]
  dsimp only
  cases hcov : lit.findIdx? fun f => covers f.1 slot.col.name with
  | none => simp
  | some i =>
    obtain ⟨hlt, -, -⟩ := List.findIdx?_eq_some_iff_getElem.mp hcov
    obtain ⟨⟨fn, v⟩, hf⟩ : ∃ f, lit[i] = f := ⟨_, rfl⟩
    have hat : lit[i]? = some (fn, v) := by rw [List.getElem?_eq_getElem hlt, hf]
    rw [Option.bind_some, hat]
    cases v with
    | other e =>
      simp only [Option.map_none, reduceCtorEq, Option.some.injEq, false_iff, not_exists, not_and]
      rintro fn' es rfl hfield
      rw [hat] at hfield
      cases hfield
    | arrayLiteral es =>
      dsimp only
      constructor
      · intro htaken
        obtain ⟨r, hr, rfl⟩ := Option.map_eq_some_iff.mp htaken
        obtain ⟨e, he, rfl⟩ := Option.map_eq_some_iff.mp hr
        exact ⟨fn, es, rfl, hat, (List.getElem?_eq_some_iff.mp he).1, rfl⟩
      · rintro ⟨fn', es', hi, hfield, hlen, helem⟩
        obtain ⟨fld, el⟩ := o
        cases hi
        rw [hat] at hfield
        cases hfield
        dsimp only at helem
        rw [helem, List.getElem?_eq_getElem hlen]
        rfl

theorem writes_whole_iff {i : Nat} : writes fields lit ⟨i, none⟩ slot = true ↔
    ∃ v, lit[i]? = some (slot.col.name, v) ∧ byMembers fields (slot.col.name, v) = false := by
  unfold writes
  cases hf : lit[i]? with
  | none => simp
  | some f =>
    obtain ⟨fn, v⟩ := f
    simp only [Bool.and_eq_true, Bool.not_eq_true', beq_iff_eq, Option.some.injEq, Prod.mk.injEq]
    constructor
    · rintro ⟨hby, rfl⟩
      exact ⟨v, ⟨rfl, rfl⟩, hby⟩
    · rintro ⟨v', ⟨rfl, rfl⟩, hby⟩
      exact ⟨hby, rfl⟩

theorem writes_member_iff {i k : Nat} : writes fields lit ⟨i, some k⟩ slot = true ↔
    ∃ es l, slot.lane = some l ∧ lit[i]? = some (l.base, .arrayLiteral es) ∧
      isGroup fields l.base = true ∧ k < es.length ∧ l.index = k := by
  unfold writes
  cases hf : lit[i]? with
  | none => simp
  | some f =>
    obtain ⟨fn, v⟩ := f
    cases v with
    | other e => simp
    | arrayLiteral es =>
      simp only [byMembers, Bool.and_eq_true, decide_eq_true_eq, Option.any_eq_true_iff_get,
        beq_iff_eq, Option.some.injEq, Prod.mk.injEq]
      constructor
      · rintro ⟨⟨hgroup, hk⟩, hsome, hbase, hindex⟩
        refine ⟨es, slot.lane.get hsome, (Option.some_get hsome).symm, ⟨hbase.symm, rfl⟩, ?_, hk,
          hindex⟩
        rw [hbase]
        exact hgroup
      · rintro ⟨es', l, hl, ⟨rfl, hes⟩, hgroup, hk, hindex⟩
        cases hes
        exact ⟨⟨hgroup, hk⟩, by simp [hl], by simp [hl], by simpa [hl] using hindex⟩

/-- The first field of the column's name is written for it, unless it gives members. -/
theorem writes_named {i : Nat} (h : lit.findIdx? (fun f => f.1 == slot.col.name) = some i)
    (hclear : slot.Clear fields lit) : writes fields lit ⟨i, none⟩ slot = true := by
  obtain ⟨v, hv⟩ := (picked_named h).2
  exact writes_whole_iff.mpr ⟨v, hv, hclear.name i _ h hv⟩

/-- Without a field of the column's name only members are written for it. -/
theorem unnamed_writes (h : lit.findIdx? (fun f => f.1 == slot.col.name) = none) {o : Occ}
    (hw : writes fields lit o slot = true) : ∃ k, o.element = some k := by
  obtain ⟨i, el⟩ := o
  cases el with
  | some k => exact ⟨k, rfl⟩
  | none =>
    obtain ⟨v, hv, -⟩ := writes_whole_iff.mp hw
    have hmem := List.mem_of_getElem? hv
    have hne := List.findIdx?_eq_none_iff.mp h _ hmem
    simp at hne

theorem picked_iff_of_clear (hmem : slot ∈ slots fields) (hclear : slot.Clear fields lit)
    (o : Occ) : picked lit slot = some o ↔ writes fields lit o slot = true := by
  have hunique : ∀ o', picked lit slot = some o' → writes fields lit o' slot = true →
      (picked lit slot = some o ↔ writes fields lit o slot = true) := by
    intro o' hpick hw'
    constructor
    · intro h
      rw [← Option.some.inj (hpick.symm.trans h)]
      exact hw'
    · intro hw
      rw [hpick, hclear.single o' o hw' hw]
  cases hname : lit.findIdx? fun f => f.1 == slot.col.name with
  | some i => exact hunique ⟨i, none⟩ (picked_named hname).1 (writes_named hname hclear)
  | none =>
    rcases Classical.em (∃ o', writes fields lit o' slot = true) with ⟨⟨i, el⟩, hw⟩ | hnone
    · obtain ⟨k, hk⟩ := unnamed_writes hname hw
      dsimp only at hk
      subst hk
      refine hunique ⟨i, some k⟩ ?_ hw
      obtain ⟨es, l, hlane, hfield, -, hlen, hindex⟩ := writes_member_iff.mp hw
      obtain ⟨hfirst, houter⟩ := hclear.first i k hw
      obtain ⟨hcovers, hplace⟩ := lane_spec hmem hlane
      have hzero : elemIndex l.outer l.base = 0 := by
        rw [elemIndex, List.countP_eq_zero]
        intro c hc
        rw [houter l hlane c hc]
        exact Bool.false_ne_true
      have hk : elemIndex slot.before l.base = k := by omega
      refine (picked_unnamed hname _).mpr ⟨l.base, es, ?_, hfield, by omega, by rw [hk]⟩
      obtain ⟨hlt, hat⟩ := List.getElem?_eq_some_iff.mp hfield
      rw [List.findIdx?_eq_some_iff_getElem]
      refine ⟨hlt, by rw [hat]; exact hcovers, fun j hj => ?_⟩
      rw [hfirst j _ hj (List.getElem?_eq_getElem (Nat.lt_trans hj hlt))]
      exact Bool.false_ne_true
    · have hall : ∀ o', writes fields lit o' slot = false := fun o' =>
        Bool.eq_false_iff.mpr fun h => hnone ⟨o', h⟩
      rw [hall o]
      simp only [Bool.false_eq_true, iff_false]
      intro hpick
      obtain ⟨fn, es, hcov, hfield, hlen, -⟩ := (picked_unnamed hname o).mp hpick
      exact Nat.not_lt.mpr (hclear.empty hall _ fn es hcov hfield) hlen

theorem clear_of_picked (hmem : slot ∈ slots fields)
    (h : ∀ o, picked lit slot = some o ↔ writes fields lit o slot = true) :
    slot.Clear fields lit where
  single o o' hw hw' := Option.some.inj (((h o).mpr hw).symm.trans ((h o').mpr hw'))
  name i f hname hfield := by
    obtain ⟨v, hv, hby⟩ := writes_whole_iff.mp ((h _).mp (picked_named hname).1)
    rw [hfield] at hv
    cases hv
    exact hby
  first i k hw := by
    have hpick := (h _).mpr hw
    cases hname : lit.findIdx? fun f => f.1 == slot.col.name with
    | some j =>
      rw [(picked_named hname).1] at hpick
      cases hpick
    | none =>
      obtain ⟨fn, es, hcov, hfield, -, helem⟩ := (picked_unnamed hname _).mp hpick
      obtain ⟨es', l, hlane, hfield', -, -, hindex⟩ := writes_member_iff.mp hw
      dsimp only at hcov hfield helem
      rw [hfield] at hfield'
      cases hfield'
      obtain ⟨_, -, hbefore⟩ := List.findIdx?_eq_some_iff_getElem.mp hcov
      refine ⟨fun j f hj hf => ?_, fun l' hlane' c hc => ?_⟩
      · obtain ⟨hlt, rfl⟩ := List.getElem?_eq_some_iff.mp hf
        exact Bool.eq_false_iff.mpr (hbefore j hj)
      · rw [hlane] at hlane'
        cases hlane'
        obtain ⟨-, hplace⟩ := lane_spec hmem hlane
        have hzero : elemIndex l.outer l.base = 0 := by
          have hk := Option.some.inj helem
          omega
        exact Bool.eq_false_iff.mpr (List.countP_eq_zero.mp hzero c hc)
  empty hnone i fn es hcov hfield := by
    cases hname : lit.findIdx? fun f => f.1 == slot.col.name with
    | some j =>
      have hw := (h _).mp (picked_named hname).1
      rw [hnone] at hw
      cases hw
    | none =>
      by_contra hlen
      have hpick := (picked_unnamed hname ⟨i, some (elemIndex slot.before fn)⟩).mpr
        ⟨fn, es, hcov, hfield, Nat.lt_of_not_le hlen, rfl⟩
      have hw := (h _).mp hpick
      rw [hnone] at hw
      cases hw

/-- A column takes exactly what is written for it if the names are clear. -/
theorem columnValue_iff (hmem : slot ∈ slots fields) :
    (∀ o, picked lit slot = some o ↔ writes fields lit o slot = true) ↔ slot.Clear fields lit :=
  ⟨clear_of_picked hmem, fun hclear o => picked_iff_of_clear hmem hclear o⟩

end Column

/-! ## All columns -/

section Columns

variable {fields : List Field} {lit : EntityLit E} {S : Shape}

theorem emitArgs_fst (eval : Value E → σ → Operand S × σ) (cs before : List Col) (n : Nat) (s : σ) :
    (emitArgs lit eval before cs n s).map Prod.fst =
      ((withBefore before cs).take (32 - n)).map
        fun b => (columnValue lit b.1 b.2.name).map Prod.fst := by
  induction cs generalizing before n s with
  | nil => simp [emitArgs, withBefore]
  | cons c cs ih =>
    rw [emitArgs, withBefore]
    split
    · next hroom =>
      rw [show 32 - n = 32 - (n + 1) + 1 by omega, List.take_succ_cons, List.map_cons]
      cases hv : columnValue lit before c.name with
      | none => rw [List.map_cons, ih]; rfl
      | some r => rw [List.map_cons, ih]; rfl
    · next hfull => rw [Nat.sub_eq_zero_of_le (Nat.not_lt.mp hfull), List.take_zero]; rfl

/-- The occurrences that are evaluated for the arguments. -/
theorem emitArgs_picked (eval : Value E → σ → Operand S × σ) (s : σ) :
    (emitArgs lit eval [] (columns fields) 0 s).map Prod.fst =
      ((slots fields).take 32).map (picked lit) := by
  rw [emitArgs_fst, ← slotsFrom_before, ← List.map_take, List.map_map]
  rfl

theorem mem_occurrences_of_writes {o : Occ} {slot : Slot}
    (h : writes fields lit o slot = true) : o ∈ occurrences fields lit := by
  obtain ⟨i, el⟩ := o
  rw [occurrences, List.mem_flatMap]
  cases el with
  | none =>
    obtain ⟨v, hv, hby⟩ := writes_whole_iff.mp h
    refine ⟨((slot.col.name, v), i), List.mk_mem_zipIdx_iff_getElem?.mpr hv, ?_⟩
    dsimp only
    rw [hby]
    simp
  | some k =>
    obtain ⟨es, l, -, hv, hgroup, hk, -⟩ := writes_member_iff.mp h
    refine ⟨((l.base, .arrayLiteral es), i), List.mk_mem_zipIdx_iff_getElem?.mpr hv, ?_⟩
    have hby : byMembers fields (l.base, Value.arrayLiteral es) = true := hgroup
    dsimp only
    rw [hby]
    exact List.mem_map.mpr ⟨k, List.mem_range.mpr hk, rfl⟩

theorem nodup_occurrences (fields : List Field) (lit : EntityLit E) :
    (occurrences fields lit).Nodup := by
  rw [occurrences, List.nodup_flatMap]
  constructor
  · rintro ⟨⟨fn, v⟩, i⟩ -
    dsimp only
    split
    · exact List.nodup_range.map fun a b hab => by simpa using hab
    · exact List.nodup_singleton _
  · have hfield : ∀ f : (Text × Value E) × Nat, ∀ o ∈ (match byMembers fields f.1, f.1.2 with
        | true, .arrayLiteral es => (List.range es.length).map fun k => (⟨f.2, some k⟩ : Occ)
        | _, _ => [⟨f.2, none⟩]), o.field = f.2 := by
      rintro ⟨⟨fn, v⟩, i⟩ o ho
      dsimp only at ho
      split at ho
      · obtain ⟨k, -, rfl⟩ := List.mem_map.mp ho
        rfl
      · rw [List.mem_singleton.mp ho]
    have hnodup : (lit.zipIdx.map Prod.snd).Nodup := by
      rw [List.zipIdx_map_snd]
      exact List.nodup_range'
    refine (List.pairwise_map.mp hnodup).imp fun hne => ?_
    intro o ho ho'
    exact hne ((hfield _ o ho).symm.trans (hfield _ o ho'))

/-- Every value is evaluated once if it is written for one column. -/
theorem once_iff (hpick : ∀ slot ∈ slots fields, ∀ o,
      picked lit slot = some o ↔ writes fields lit o slot = true) :
    List.Perm ((slots fields).filterMap (picked lit)) (occurrences fields lit) ↔
      ∀ o ∈ occurrences fields lit, (slots fields).countP (writes fields lit o) = 1 := by
  have hcount : ∀ o, ((slots fields).filterMap (picked lit)).count o =
      (slots fields).countP (writes fields lit o) := by
    intro o
    rw [List.count_filterMap]
    refine List.countP_congr fun slot hslot => ?_
    rw [beq_iff_eq]
    exact hpick slot hslot o
  rw [List.perm_iff_count]
  constructor
  · intro h o ho
    rw [← hcount, h, List.count_eq_one_of_mem (nodup_occurrences fields lit) ho]
  · intro h o
    rw [hcount]
    rcases Classical.em (o ∈ occurrences fields lit) with ho | ho
    · rw [h o ho, List.count_eq_one_of_mem (nodup_occurrences fields lit) ho]
    · rw [List.count_eq_zero_of_not_mem ho, List.countP_eq_zero]
      exact fun slot _ hw => ho (mem_occurrences_of_writes hw)

theorem filterMap_fst (args : List (Option Occ × Operand S)) :
    args.filterMap Prod.fst = (args.map Prod.fst).filterMap id := by
  rw [List.filterMap_map]
  rfl

/-- Where all expressions come to `op`. -/
theorem emitArgs_const {op : Operand S} {cs before : List Col} {n : Nat} {s : σ}
    {a : Option Occ × Operand S}
    (h : a ∈ emitArgs lit (fun _ s => (op, s)) before cs n s) :
    a = (none, .zero) ∨ ∃ o, a = (some o, op) := by
  induction cs generalizing before n with
  | nil => cases h
  | cons c cs ih =>
    rw [emitArgs] at h
    split at h
    · split at h
      · rcases List.mem_cons.mp h with rfl | h
        · exact .inr ⟨_, rfl⟩
        · exact ih h
      · rcases List.mem_cons.mp h with rfl | h
        · exact .inl rfl
        · exact ih h
    · cases h

theorem slots_col {i : Nat} {slot : Slot} (h : (slots fields)[i]? = some slot) :
    (columns fields)[i]? = some slot.col := by
  have hsnd : ∀ (cs before : List Col), (withBefore before cs).map Prod.snd = cs := by
    intro cs
    induction cs with
    | nil => intro; rfl
    | cons c cs ih => intro before; rw [withBefore, List.map_cons, ih]
  have hcols := hsnd (columns fields) []
  rw [← slotsFrom_before, List.map_map] at hcols
  rw [← hcols, List.getElem?_map]
  have hat : (slotsFrom [] fields)[i]? = some slot := h
  rw [hat]
  rfl

/-- The arguments as the slots take them, where the table has room. -/
theorem args_fst {eval : Value E → σ → Operand S × σ} {s : σ}
    (htable : (columns fields).length ≤ 32) :
    (emitArgs lit eval [] (columns fields) 0 s).map Prod.fst = (slots fields).map (picked lit) := by
  rw [emitArgs_picked, List.take_of_length_le (by rw [length_slots]; exact htable)]

theorem arg_fst {eval : Value E → σ → Operand S × σ} {s : σ}
    (htable : (columns fields).length ≤ 32) {i : Nat} {slot : Slot} {a : Option Occ × Operand S}
    (hslot : (slots fields)[i]? = some slot)
    (harg : (emitArgs lit eval [] (columns fields) 0 s)[i]? = some a) : a.1 = picked lit slot := by
  have hat := congrArg (fun l => l[i]?) (@args_fst _ _ _ lit _ eval s htable)
  rw [List.getElem?_map, List.getElem?_map, harg, hslot] at hat
  exact Option.some.inj hat

end Columns

/-! ## The row -/

section Row

open WriteLemmas

variable {fields : List Field} {args : List (Option Occ × Operand (shapeOf fields))} {cap : Nat}
  {p : Pool (shapeOf fields).Row cap}

theorem callArgs_at {c : Fin (shapeOf fields).ncol} {a : Option Occ × Operand (shapeOf fields)}
    (h : args[c.val]? = some a) : (callArgs args).value c = BitVec.ofInt _ a.2.value ∧
      (callArgs args).source c = a.2.source := by
  have hvalue : (callArgs args).value c =
    BitVec.ofInt _ (((args[c.val]?).map fun a => a.2.value).getD 0) := rfl
  have hsource : (callArgs args).source c =
    ((args[c.val]?).map fun a => a.2.source).getD (.outside fun _ => 0) := rfl
  rw [hvalue, hsource, h]
  exact ⟨rfl, rfl⟩

/-- A row that the helper writes holds the value of a scalar or text column. -/
theorem holds_writtenRow {c : Fin (shapeOf fields).ncol}
    {a : Option Occ × Operand (shapeOf fields)} (h : args[c.val]? = some a)
    (hscalar : ((shapeOf fields).col c).perRow ≤ 1 ∨ ((shapeOf fields).col c).isText = true)
    (old : (shapeOf fields).Row) :
    HoldsValue p c a.2 (writtenRow ((callArgs args).given p) old c) := by
  obtain ⟨hvalue, hsource⟩ := callArgs_at h
  unfold HoldsValue writtenRow
  split
  · rw [← hsource]
    rfl
  · next htext =>
    intro j hj
    have hone := hscalar.resolve_right htext
    obtain rfl : j = 0 := by omega
    rw [Vector.getElem_setIfInBounds_self]
    exact hvalue

/-- In an empty pool an insert succeeds, in the first slot. -/
theorem insert_empty (args : Args (shapeOf fields)) :
    let start := (Sys.start 1 (fun _ => Vector.replicate _ 0 : (shapeOf fields).Row) 0).pool
    ∃ o, archeInsertArgs start args (-1) = some o ∧ o.ok = true ∧
      start.takenSlot (-1) = some 0 := by
  intro start
  have hk : Kept (Sys.start 1 (fun _ => Vector.replicate _ 0 : (shapeOf fields).Row) 0) :=
    CapacityLemmas.kept_start Nat.one_pos _ (Int.le_refl 0) (by decide)
  have hchoose : chooseSlot start (-1) = some (some ⟨start, 0, true, false, []⟩) :=
    chooseSlot_empty Nat.one_pos rfl rfl
  obtain ⟨row, hrow, -⟩ := archeInsertArgs_eq start args (-1)
  obtain ⟨o, ho, -⟩ := CapacityLemmas.insert_kept hk Nat.one_pos (by decide) row (.inl rfl)
  rw [← hrow] at ho
  refine ⟨o, ho, ?_, by rw [Pool.takenSlot, hchoose]; rfl⟩
  rcases insertArgs_rows ho with ⟨hfull, -⟩ | ⟨d, -, -, hok, -⟩
  · rw [hchoose] at hfull
    cases hfull
  · exact hok

/-- A column of several numbers does not hold its value in an empty pool. -/
theorem scalar_of_row {c : Fin (shapeOf fields).ncol} {o : Occ}
    (harg : args[c.val]? = some (some o, ⟨1, .outside fun _ => 0⟩))
    (hapart : ∀ cap (p : Pool (shapeOf fields).Row cap) slot, (callArgs args).Apart p slot)
    (h : ∀ {cap : Nat} (p : Pool (shapeOf fields).Row cap) (evictSlot : Int)
      (out : Outcome (shapeOf fields).Row cap),
      archeInsertArgs p (callArgs args) evictSlot = some out → out.ok = true →
      (∀ slot, p.takenSlot evictSlot = some slot → (callArgs args).Apart p slot) →
      ∃ (slot : Nat) (row : (shapeOf fields).Row), out.slot = some (slot : Int) ∧
        out.pool.rows[slot]? = some row ∧
        ∀ (c : Fin (shapeOf fields).ncol) (occ : Occ) (op : Operand (shapeOf fields)),
          args[c.val]? = some (some occ, op) → HoldsValue p c op (row c)) :
    ((shapeOf fields).col c).perRow ≤ 1 ∨ ((shapeOf fields).col c).isText = true := by
  refine or_iff_not_imp_right.mpr fun htext => ?_
  by_contra hwide
  obtain ⟨out, hout, hok, -⟩ := insert_empty (callArgs args)
  obtain ⟨slot, row, hslot, hrow, hholds⟩ := h _ _ out hout hok fun _ _ => hapart _ _ _
  obtain ⟨slot', old, hslot', hold, hrow', -⟩ := insertArgs_fresh hout hok fun _ _ => hapart _ _ _
  have hsame : slot' = slot := Int.ofNat.inj (Option.some.inj (hslot'.symm.trans hslot))
  subst hsame
  rw [hrow', Option.some.injEq] at hrow
  have hat := hholds c o _ harg
  rw [← hrow, HoldsValue, if_neg htext, writtenRow, if_neg htext] at hat
  have hlast := hat 1 (by omega)
  rw [Vector.getElem_setIfInBounds_ne (by omega) (by decide)] at hlast
  have hzero : old = fun _ => Vector.replicate _ 0 := by
    have hlt : slot' < 1 := (Vector.getElem?_eq_some_iff.mp hold).1
    obtain rfl : slot' = 0 := by omega
    exact (Option.some.inj hold).symm
  rw [hzero, Vector.getElem_replicate] at hlast
  have hnat : (0 : Nat) = 1 % 2 ^ ((shapeOf fields).col c).type.bits := by
    simpa using congrArg BitVec.toNat hlast
  rw [Nat.mod_eq_of_lt (Nat.one_lt_two_pow (bits_pos _).ne')] at hnat
  cases hnat

/-- Arguments out of the pool are apart from every row. -/
theorem apart_of_outside (h : ∀ a ∈ args, ∃ mem, a.2.source = .outside mem) (slot : Nat) :
    (callArgs args).Apart p slot := by
  intro c _
  have hsource : (callArgs args).source c =
    ((args[c.val]?).map fun a => a.2.source).getD (.outside fun _ => 0) := rfl
  rw [hsource]
  cases hat : args[c.val]? with
  | none => trivial
  | some a =>
    obtain ⟨mem, hmem⟩ := h a (List.mem_of_getElem? hat)
    rw [Option.map_some, Option.getD_some, hmem]
    trivial

/-- What a column is, by the place of its slot. -/
theorem shape_col {i : Nat} {slot : Slot} (hslot : (slots fields)[i]? = some slot)
    (hlt : i < (shapeOf fields).ncol) : (shapeOf fields).col ⟨i, hlt⟩ = slot.col.type := by
  have hcol := slots_col hslot
  obtain ⟨hlt', hat⟩ := List.getElem?_eq_some_iff.mp hcol
  exact congrArg Col.type hat

end Row

section Main

variable {fields : List Field} {lit : EntityLit E}

/-- Where all expressions come to one. -/
def ones (fields : List Field) : Value E → Unit → Operand (shapeOf fields) × Unit :=
  fun _ s => (⟨1, .outside fun _ => 0⟩, s)

theorem wellNamed_of_placed (h : PlacedAlways fields lit) : WellNamed fields lit := by
  have hp := h (ones fields) ()
  have htable : (columns fields).length ≤ 32 := by
    have hlen := congrArg List.length (@emitArgs_picked _ _ fields lit _ (ones fields) ())
    rw [List.length_map, List.length_map, List.length_take, hp.arguments, length_slots] at hlen
    omega
  have harg : ∀ {i : Nat} {slot : Slot}, (slots fields)[i]? = some slot →
      ∃ a, (emitArgs lit (ones fields) [] (columns fields) 0 ())[i]? = some a ∧
        a.1 = picked lit slot := by
    intro i slot hslot
    have hlt := (List.getElem?_eq_some_iff.mp hslot).1
    rw [length_slots, ← hp.arguments] at hlt
    exact ⟨_, List.getElem?_eq_getElem hlt, arg_fst htable hslot (List.getElem?_eq_getElem hlt)⟩
  have hpick : ∀ slot ∈ slots fields, ∀ o,
      picked lit slot = some o ↔ writes fields lit o slot = true := by
    intro slot hmem o
    obtain ⟨i, hslot⟩ := List.mem_iff_getElem?.mp hmem
    obtain ⟨a, ha, hfst⟩ := harg hslot
    rw [← hfst]
    exact hp.column i slot a hslot ha o
  refine ⟨htable, (once_iff hpick).mp ?_, fun slot hmem =>
    (columnValue_iff hmem).mp (hpick slot hmem), fun slot hmem o hw => ?_⟩
  · have honce := hp.once
    rwa [filterMap_fst, args_fst htable, List.filterMap_map] at honce
  · obtain ⟨i, hslot⟩ := List.mem_iff_getElem?.mp hmem
    obtain ⟨a, ha, hfst⟩ := harg hslot
    have hlt : i < (shapeOf fields).ncol := (List.getElem?_eq_some_iff.mp (slots_col hslot)).1
    have hone : a = (some o, ⟨1, .outside fun _ => 0⟩) := by
      rw [(hpick slot hmem o).mpr hw] at hfst
      rcases emitArgs_const (List.mem_of_getElem? ha) with rfl | ⟨o', rfl⟩
      · cases hfst
      · rw [← hfst]
    rw [hone] at ha
    have hscalar := @scalar_of_row _ _ ⟨i, hlt⟩ o ha
      (fun cap p slot => apart_of_outside ?_ slot) hp.row
    · rwa [shape_col hslot hlt] at hscalar
    · intro b hb
      rcases emitArgs_const hb with rfl | ⟨o', rfl⟩ <;> exact ⟨_, rfl⟩

theorem placed_of_wellNamed (h : WellNamed fields lit) : PlacedAlways fields lit := by
  intro σ eval s
  have hpick : ∀ slot ∈ slots fields, ∀ o,
      picked lit slot = some o ↔ writes fields lit o slot = true :=
    fun slot hmem => (columnValue_iff hmem).mpr (h.clear slot hmem)
  refine ⟨?_, ?_, ?_, ?_⟩
  · have hlen := congrArg List.length (@args_fst _ _ _ lit _ eval s h.table)
    rw [List.length_map, List.length_map, length_slots] at hlen
    exact hlen
  · intro i slot a hslot ha o
    rw [arg_fst h.table hslot ha]
    exact hpick slot (List.mem_of_getElem? hslot) o
  · rw [filterMap_fst, args_fst h.table, List.filterMap_map]
    exact (once_iff hpick).mpr h.values
  · intro cap p evictSlot o ho hok hapart
    obtain ⟨slot, old, hslot, -, hrow, -⟩ := WriteLemmas.insertArgs_fresh ho hok hapart
    refine ⟨slot, _, hslot, hrow, fun c occ op harg => holds_writtenRow harg ?_ old⟩
    have hlt : c.val < (slots fields).length := by
      rw [length_slots]
      exact c.isLt
    have hat : (slots fields)[c.val]? = some (slots fields)[c.val] := List.getElem?_eq_getElem hlt
    have hw := (hpick _ (List.mem_of_getElem? hat) occ).mp (arg_fst h.table hat harg).symm
    rw [show c = ⟨c.val, c.isLt⟩ from rfl, shape_col hat]
    exact h.scalars _ (List.mem_of_getElem? hat) occ hw

end Main

def intColumn : Codegen.Column := ⟨.int .w32 true, 1⟩

/-- A column `pos_x_y` and after it the group `pos (x, y)`. -/
def posFields : List Field :=
  [.column ⟨"pos_x_y".toList, intColumn⟩, .group "pos".toList ["x".toList, "y".toList] intColumn]

/-- `{ pos: (1, 2), pos_x_y: 7 }`. -/
def posLit : EntityLit Nat := [("pos".toList, .arrayLiteral [1, 2]), ("pos_x_y".toList, .other 7)]

end Arche.Codegen.EntityInsert
