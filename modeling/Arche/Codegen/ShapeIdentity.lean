import Arche.Lib.Words
import Mathlib.Tactic.Common
import Mathlib.Data.List.Find
import Mathlib.Data.List.Nodup
import Mathlib.Data.List.Perm.Subperm

/-!
# When two shapes are one

A shape is a set of columns and has one pool, whoever declares it. Four functions tell
shapes apart:

* `compute_shape_signature` (semantic.c) writes `name:type:col;` for each column, sorts
  the parts and concatenates them;
* `archetypes_same_shape` (codegen.c) compares the names of the columns, after lowering
  has spelled out tuple groups, and the first declaration of a shape is the canonical one;
* `sem_synth_shape_name` (semantic.c) and `synth_archetype_name` (lower.c) join the sorted
  names of an anonymous shape with `_`.

1. `shapes_agree_iff`: without cut texts and repeated columns they agree exactly if two
   shapes with the same spelled out columns are written with the same columns, of the same
   types, and if the names of anonymous shapes are not the same words put together
   differently.
2. `not_shapes_agree`: with `pos (x, y) :: float` the shapes `{ pos }` and
   `{ pos_x, pos_y }` have two signatures and one pool.
-/

namespace Arche.Codegen.ShapeIdentity

open Arche.Lib

/-! ## Shapes -/

/-- The type of a column as the signature sees it: `sem_tyid_name` of what is no array, which is
nothing for a tuple. -/
inductive ColType
  | slice
  | array
  | named (name : List Char)
  | unnamed
deriving DecidableEq

def ColType.text : ColType → List Char
  | slice => "array".toList
  | array => "shaped_array".toList
  | named name => name
  | unnamed => "unknown".toList

/-- The characters of names, with the dot of a qualified one. -/
def isNameChar (c : Char) : Bool := c.isAlphanum || c == '_' || c == '.'

structure Column where
  name : List Char
  type : ColType
  isName : name.all isNameChar = true ∧ type.text.all isNameChar = true
deriving DecidableEq

/-- An archetype declaration or an anonymous shape. The semantic pass refuses a component named
twice. -/
structure Shape where
  cols : List Column
  distinct : (cols.map Column.name).Nodup
deriving DecidableEq

/-- `pos (x, y) :: T`. -/
structure TupleGroup where
  name : List Char
  suffix : List (List Char)

/-- The tuple groups, the archetype declarations in source order, and the anonymous shapes. -/
structure Program where
  groups : List TupleGroup
  decls : List Shape
  anons : List Shape

/-! ## Semantic analysis -/

/-- `name:type:col;`, as long as it is. -/
def Column.entry (c : Column) : List Char := c.name ++ ':' :: (c.type.text ++ ":col;".toList)

/-- What a buffer of 256 bytes keeps of a text. -/
def inBuffer (text : List Char) : List Char := text.take 255

def computeShapeSignature (a : Shape) : List Char :=
  (sortTexts (a.cols.map fun c => inBuffer c.entry)).flatten

/-- The names of an anonymous shape, up to 64 of them. -/
def Shape.names (a : Shape) : List (List Char) := (a.cols.map Column.name).take 64

/-- The comparison of `sem_synth_shape_name`. -/
def compareNames (x y : List Char) : Ordering :=
  (memcmp (min x.length y.length) x y).then (compare x.length y.length)

def semSynthShapeName (a : Shape) : List Char :=
  let names := a.names.insertionSort fun x y => (compareNames x y).isLE = true
  inBuffer ("__shape".toList ++ led '_' names)

/-! ## Lowering and code generation -/

/-- The name `synth_archetype_name` looks for. -/
def synthArchetypeName (a : Shape) : List Char :=
  inBuffer ("__shape".toList ++ led '_' (sortTexts a.names))

/-- The names `synth_archetype_name` has room for. -/
def Program.synthArch (P : Program) : List (List Char) :=
  ((P.anons.map synthArchetypeName).eraseDups).take 64

/-- What `synth_archetype_name` returns, `none` for `NULL`. -/
def Program.loweredName (P : Program) (a : Shape) : Option (List Char) :=
  if P.synthArch.contains (synthArchetypeName a) then some (synthArchetypeName a) else none

def Program.tgroupLookup (P : Program) (name : List Char) : Option TupleGroup :=
  P.groups.find? fun g => g.name == name

/-- The columns `lower_archetype_from` makes of one. -/
def Program.lowerField (P : Program) (name : List Char) : List (List Char) :=
  match P.tgroupLookup name with
  | some g => g.suffix.map fun suffix => name ++ '_' :: suffix
  | none => [name]

def Program.lowerArchetype (P : Program) (a : Shape) : List (List Char) :=
  (a.cols.map Column.name).flatMap P.lowerField

def archetypesSameShape (a b : List (List Char)) : Bool :=
  a.length == b.length && a.all fun f => b.contains f

def Program.canonicalArchetypeDecl (P : Program) (a : Shape) : Shape :=
  (P.decls.find? fun d => archetypesSameShape (P.lowerArchetype d) (P.lowerArchetype a)).getD a

/-! ## Agreement -/

/-- A column as it is told apart in a signature. -/
def Column.key (c : Column) : List Char × List Char := (c.name, c.type.text)

/-- The same columns with the same types, in any order. -/
def SameColumns (a b : Shape) : Prop := (a.cols.map Column.key).Perm (b.cols.map Column.key)

/-- Semantic analysis and code generation agree on the shapes of the program. -/
structure Program.Agrees (P : Program) : Prop where
  shapes : ∀ a ∈ P.decls, ∀ b ∈ P.decls, computeShapeSignature a = computeShapeSignature b ↔
    P.canonicalArchetypeDecl a = P.canonicalArchetypeDecl b
  names : ∀ a ∈ P.anons, ∀ b ∈ P.anons,
    (P.loweredName a = P.loweredName b ↔ semSynthShapeName a = semSynthShapeName b) ∧
    (semSynthShapeName a = semSynthShapeName b → SameColumns a b)

/-- No text is cut, neither an entry of a signature nor the name of an anonymous shape, and lowering
has room for the anonymous shapes and their columns. -/
structure Program.Short (P : Program) : Prop where
  entries : ∀ a ∈ P.decls, ∀ c ∈ a.cols, c.entry.length ≤ 255
  names : ∀ a ∈ P.anons, a.cols.length ≤ 64 ∧
    ("__shape".toList ++ led '_' (sortTexts a.names)).length ≤ 255
  room : (P.anons.map synthArchetypeName).eraseDups.length ≤ 64

/-- No column is there twice after the tuple groups are spelled out. -/
def Program.Distinct (P : Program) : Prop := ∀ a ∈ P.decls, (P.lowerArchetype a).Nodup

/-- Shapes that come to the same columns are written with the same columns, and anonymous shapes whose
sorted names are the same words, cut at each `_`, too. -/
structure Program.Plain (P : Program) : Prop where
  shapes : ∀ a ∈ P.decls, ∀ b ∈ P.decls,
    (∀ f, f ∈ P.lowerArchetype a ↔ f ∈ P.lowerArchetype b) → SameColumns a b
  names : ∀ a ∈ P.anons, ∀ b ∈ P.anons,
    wordsOf '_' (sortTexts a.names) = wordsOf '_' (sortTexts b.names) → SameColumns a b

/-! ## Signatures -/

theorem not_mem_of_isName {text : List Char} (h : text.all isNameChar = true) :
    ':' ∉ text ∧ ';' ∉ text := by
  rw [List.all_eq_true] at h
  exact ⟨fun hmem => absurd (h _ hmem) (by decide), fun hmem => absurd (h _ hmem) (by decide)⟩

theorem entry_eq_iff (c d : Column) : c.entry = d.entry ↔ c.key = d.key := by
  have hc := not_mem_of_isName c.isName.1
  have hd := not_mem_of_isName d.isName.1
  constructor
  · intro h
    obtain ⟨hname, htype⟩ := append_mark_inj hc.1 hd.1 h
    exact Prod.ext hname (List.append_cancel_right htype)
  · intro h
    obtain ⟨hname, htype⟩ := Prod.mk.inj h
    rw [Column.entry, Column.entry, hname, htype]

/-- An entry has one `;`, at its end. -/
theorem entry_ended (c : Column) : ∃ w, c.entry = w ++ [';'] ∧ ';' ∉ w := by
  refine ⟨c.name ++ ':' :: (c.type.text ++ ":col".toList), ?_, ?_⟩
  · rw [Column.entry, List.append_assoc, List.cons_append, List.append_assoc]
    rfl
  · have hname := (not_mem_of_isName c.isName.1).2
    have htype := (not_mem_of_isName c.isName.2).2
    simp [hname, htype]

theorem map_inBuffer_entry {a : Shape} (h : ∀ c ∈ a.cols, c.entry.length ≤ 255) :
    (a.cols.map fun c => inBuffer c.entry) = a.cols.map Column.entry :=
  List.map_congr_left fun c hc => List.take_of_length_le (h c hc)

/-- Signatures that are not cut tell columns and their types apart. -/
theorem signature_eq_iff {a b : Shape} (ha : ∀ c ∈ a.cols, c.entry.length ≤ 255)
    (hb : ∀ c ∈ b.cols, c.entry.length ≤ 255) :
    computeShapeSignature a = computeShapeSignature b ↔ SameColumns a b := by
  have hended (s : Shape) : ∀ p ∈ sortTexts (s.cols.map Column.entry), ∃ w, p = w ++ [';'] ∧ ';' ∉ w := by
    intro p hp
    obtain ⟨c, -, rfl⟩ := List.mem_map.mp ((perm_sortTexts _).mem_iff.mp hp)
    exact entry_ended c
  have hsort : computeShapeSignature a = computeShapeSignature b ↔
      sortTexts (a.cols.map Column.entry) = sortTexts (b.cols.map Column.entry) := by
    rw [computeShapeSignature, computeShapeSignature, map_inBuffer_entry ha, map_inBuffer_entry hb]
    exact ⟨flatten_inj_of_ended (hended a) (hended b), fun h => by rw [h]⟩
  have : Nonempty (List Char × List Char) := ⟨([], [])⟩
  rw [hsort, sortTexts_eq_iff, SameColumns]
  exact perm_map_iff_of_eq_iff entry_eq_iff a.cols b.cols

/-! ## Canonical declarations -/

theorem sameShape_iff_mem {a b : List (List Char)} (ha : a.Nodup) (hb : b.Nodup) :
    archetypesSameShape a b = true ↔ ∀ f, f ∈ a ↔ f ∈ b := by
  rw [archetypesSameShape, Bool.and_eq_true, beq_iff_eq, List.all_eq_true]
  simp only [List.contains_iff_mem]
  constructor
  · rintro ⟨hlen, hsub⟩ f
    have hperm : a.Perm b := (List.subperm_of_subset ha hsub).perm_of_length_le (Nat.le_of_eq hlen.symm)
    exact hperm.mem_iff
  · intro h
    have hperm : a.Perm b := (List.perm_ext_iff_of_nodup ha hb).mpr h
    exact ⟨hperm.length_eq, fun f hf => (h f).mp hf⟩

theorem canonical_eq_iff {P : Program} (hd : P.Distinct) {a b : Shape} (ha : a ∈ P.decls)
    (hb : b ∈ P.decls) : P.canonicalArchetypeDecl a = P.canonicalArchetypeDecl b ↔
      ∀ f, f ∈ P.lowerArchetype a ↔ f ∈ P.lowerArchetype b := by
  have hfound : ∀ s ∈ P.decls, ∀ f, f ∈ P.lowerArchetype (P.canonicalArchetypeDecl s) ↔
      f ∈ P.lowerArchetype s := by
    intro s hs
    rw [Program.canonicalArchetypeDecl]
    cases hfind : P.decls.find? fun d => archetypesSameShape (P.lowerArchetype d) (P.lowerArchetype s) with
    | none => exact fun f => Iff.rfl
    | some c =>
      have hmem := List.mem_of_find?_eq_some hfind
      have hsame := List.find?_some hfind
      exact (sameShape_iff_mem (hd c hmem) (hd s hs)).mp hsame
  constructor
  · intro h f
    rw [← hfound a ha, h, hfound b hb]
  · intro h
    have hpred : ∀ d ∈ P.decls, archetypesSameShape (P.lowerArchetype d) (P.lowerArchetype a) =
        archetypesSameShape (P.lowerArchetype d) (P.lowerArchetype b) := by
      intro d hmem
      rw [Bool.eq_iff_iff, sameShape_iff_mem (hd d hmem) (hd a ha),
        sameShape_iff_mem (hd d hmem) (hd b hb)]
      exact forall_congr' fun f => by rw [h f]
    have hself : archetypesSameShape (P.lowerArchetype a) (P.lowerArchetype a) = true :=
      (sameShape_iff_mem (hd a ha) (hd a ha)).mpr fun f => Iff.rfl
    rw [Program.canonicalArchetypeDecl, Program.canonicalArchetypeDecl, List.find?_congr hpred]
    cases hfind : P.decls.find? fun d => archetypesSameShape (P.lowerArchetype d) (P.lowerArchetype b) with
    | none => exact absurd (hpred a ha ▸ hself) (List.find?_eq_none.mp hfind a ha)
    | some c => rfl

/-- A group is spelled out by its name alone. -/
theorem lowerArchetype_of_sameColumns {P : Program} {a b : Shape} (h : SameColumns a b) :
    ∀ f, f ∈ P.lowerArchetype a ↔ f ∈ P.lowerArchetype b := by
  have hnames : (a.cols.map Column.name).Perm (b.cols.map Column.name) := by
    have hmap (s : Shape) : s.cols.map Column.name = (s.cols.map Column.key).map Prod.fst := by
      rw [List.map_map]
      rfl
    rw [hmap a, hmap b]
    exact h.map Prod.fst
  intro f
  exact (hnames.flatMap_right P.lowerField).mem_iff

/-! ## Names of anonymous shapes -/

/-- The two functions make the same name. -/
theorem semSynthShapeName_eq (a : Shape) : semSynthShapeName a = synthArchetypeName a := by
  unfold semSynthShapeName synthArchetypeName sortTexts
  simp only [compareNames, memcmp_then_length]

theorem loweredName_eq {P : Program} (hshort : P.Short) {a : Shape} (ha : a ∈ P.anons) :
    P.loweredName a = some (synthArchetypeName a) := by
  refine if_pos ?_
  rw [List.contains_iff_mem, Program.synthArch, List.take_of_length_le hshort.room,
    List.mem_eraseDups]
  exact List.mem_map_of_mem ha

theorem synthArchetypeName_eq_iff {a b : Shape}
    (ha : ("__shape".toList ++ led '_' (sortTexts a.names)).length ≤ 255)
    (hb : ("__shape".toList ++ led '_' (sortTexts b.names)).length ≤ 255) :
    synthArchetypeName a = synthArchetypeName b ↔
      wordsOf '_' (sortTexts a.names) = wordsOf '_' (sortTexts b.names) := by
  rw [synthArchetypeName, synthArchetypeName, inBuffer, inBuffer, List.take_of_length_le ha,
    List.take_of_length_le hb, ← led_eq_iff]
  exact ⟨List.append_cancel_left, fun h => by rw [h]⟩

/-! ## Results -/

/-- Where no text is cut and no column is there twice, semantic analysis and code generation agree
exactly if the program is plain. -/
theorem shapes_agree_iff (P : Program) (hshort : P.Short) (hdistinct : P.Distinct) :
    P.Agrees ↔ P.Plain := by
  constructor
  · rintro ⟨hshapes, hnames⟩
    refine ⟨fun a ha b hb hcols => ?_, fun a ha b hb hwords => ?_⟩
    · rw [← signature_eq_iff (hshort.entries a ha) (hshort.entries b hb), hshapes a ha b hb]
      exact (canonical_eq_iff hdistinct ha hb).mpr hcols
    · refine (hnames a ha b hb).2 ?_
      rw [semSynthShapeName_eq, semSynthShapeName_eq]
      exact (synthArchetypeName_eq_iff (hshort.names a ha).2 (hshort.names b hb).2).mpr hwords
  · rintro ⟨hshapes, hnames⟩
    refine ⟨fun a ha b hb => ?_, fun a ha b hb => ⟨?_, fun h => hnames a ha b hb ?_⟩⟩
    · rw [signature_eq_iff (hshort.entries a ha) (hshort.entries b hb), canonical_eq_iff hdistinct ha hb]
      exact ⟨lowerArchetype_of_sameColumns, hshapes a ha b hb⟩
    · rw [loweredName_eq hshort ha, loweredName_eq hshort hb, Option.some.injEq, semSynthShapeName_eq,
        semSynthShapeName_eq]
    · rw [semSynthShapeName_eq, semSynthShapeName_eq] at h
      exact (synthArchetypeName_eq_iff (hshort.names a ha).2 (hshort.names b hb).2).mp h

/-- `A :: arche { a, b }`, `B :: arche { b, a }` and the anonymous `arche { b, a }`. -/
def twoOrders : Program where
  groups := []
  decls := [⟨[⟨['a'], .named ['i'], by decide⟩, ⟨['b'], .array, by decide⟩], by decide⟩,
    ⟨[⟨['b'], .array, by decide⟩, ⟨['a'], .named ['i'], by decide⟩], by decide⟩]
  anons := [⟨[⟨['b'], .array, by decide⟩, ⟨['a'], .named ['i'], by decide⟩], by decide⟩]

theorem shapes_agree_twoOrders : twoOrders.Agrees := by
  have hsame : (∀ a ∈ twoOrders.decls, ∀ b ∈ twoOrders.decls, SameColumns a b) ∧
      ∀ a ∈ twoOrders.anons, ∀ b ∈ twoOrders.anons, SameColumns a b := by
    unfold SameColumns
    decide
  refine (shapes_agree_iff twoOrders ⟨by decide, by decide, by decide⟩
    (by unfold Program.Distinct; decide)).mpr ?_
  exact ⟨fun a ha b hb _ => hsame.1 a ha b hb, fun a ha b hb _ => hsame.2 a ha b hb⟩

/-- `p (x, y) :: f`, `A :: arche { p }` and `B :: arche { p_x, p_y }`. -/
def groupSpelledOut : Program where
  groups := [⟨['p'], [['x'], ['y']]⟩]
  decls := [⟨[⟨['p'], .unnamed, by decide⟩], by decide⟩,
    ⟨[⟨['p', '_', 'x'], .named ['f'], by decide⟩, ⟨['p', '_', 'y'], .named ['f'], by decide⟩], by decide⟩]
  anons := []

theorem not_shapes_agree : ¬ ∀ P : Program, P.Agrees := by
  intro hall
  have h := (hall groupSpelledOut).shapes _ List.mem_cons_self _ (List.mem_cons_of_mem _ List.mem_cons_self)
  exact absurd (h.mpr (by decide)) (by decide)

end Arche.Codegen.ShapeIdentity
