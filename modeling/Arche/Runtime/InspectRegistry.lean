import Mathlib.Data.List.Basic

/-!
# The registry of the inspector

The host registers its pools at the start, each pool followed by its fields. A field is appended to
the pool that was registered last.

* `kept` are the registrations that find a place in `g_pools`.
* `expected` is the registry in which every pool has the fields that were registered for it, as many
  as its table takes.
* `NoSpill`: what is registered for a dropped pool meets a pool without place for it.

1. `registry_eq`: a pool is given its own fields, then those of the dropped pools that follow.
2. `attributed_iff`: the registry is the expected one if and only if nothing spills over.
-/

namespace Arche.Runtime.Inspect

abbrev Text := List Char

/-- `ARCHE_INSPECT_MAX_POOLS`. -/
def maxPools : Nat := 256

/-- `ARCHE_INSPECT_MAX_FIELDS`. -/
def maxFields : Nat := 64

/-- `enum ArcheInspectType`. -/
inductive InspectType
  | i8 | i16 | i32 | i64 | i128 | u8 | u16 | u32 | u64 | u128 | f32 | char | handle | opaqueRef
deriving DecidableEq

/-- `ARCHE_INSPECT_FIELD_META` and `ARCHE_INSPECT_FIELD_COLUMN`. -/
inductive FieldKind
  | perPool | column
deriving DecidableEq

/-- `ArcheInspectField`. -/
structure InspectField where
  name : Text
  typeTag : InspectType
  kind : FieldKind
  byteOffset : Int
  elemCount : Int
  elemSize : Int
deriving DecidableEq

/-- `ArcheInspectPool`. -/
structure InspectPool where
  name : Text
  base : Int
  isDynamic : Bool
  capacity : Int
  fields : List InspectField
  countOff : Int
  freeListOff : Int
  freeCountOff : Int
  genOff : Int
  capOff : Int

/-- The arguments of `arche_inspect_register`. -/
structure PoolInfo where
  name : Option Text
  base : Int
  isDynamic : Bool
  capacity : Int
  countOff : Int
  freeListOff : Int
  freeCountOff : Int
  genOff : Int
  capOff : Int

inductive Call
  | register (info : PoolInfo)
  | field (poolName : Text) (f : InspectField)

/-- The entry that a registration fills in. -/
def PoolInfo.pool (info : PoolInfo) (name : Text) (fields : List InspectField) : InspectPool where
  name := name
  base := info.base
  isDynamic := info.isDynamic
  capacity := info.capacity
  fields := fields
  countOff := info.countOff
  freeListOff := info.freeListOff
  freeCountOff := info.freeCountOff
  genOff := info.genOff
  capOff := info.capOff

/-- `arche_inspect_register`. -/
def archeInspectRegister (pools : List InspectPool) (info : PoolInfo) : List InspectPool :=
  match info.name with
  | none => pools
  | some name => if pools.length ≥ maxPools then pools else pools ++ [info.pool name []]

/-- `arche_inspect_field`. -/
def archeInspectField (pools : List InspectPool) (f : InspectField) : List InspectPool :=
  match pools.getLast? with
  | none => pools
  | some p =>
    if p.fields.length ≥ maxFields then pools
    else pools.dropLast ++ [{ p with fields := p.fields ++ [f] }]

def Call.run (pools : List InspectPool) : Call → List InspectPool
  | register info => archeInspectRegister pools info
  | field _ f => archeInspectField pools f

/-- A pool with its fields. -/
structure Registration where
  info : PoolInfo
  fields : List InspectField

/-- The calls that the host makes for a pool. -/
def Registration.calls (r : Registration) : List Call :=
  .register r.info :: r.fields.map (.field (r.info.name.getD []))

/-- `g_pools` after all registrations. -/
def registry (rs : List Registration) : List InspectPool :=
  (rs.flatMap Registration.calls).foldl Call.run []

/-! ## The expected registry -/

/-- The name of a registration that gets a place, after `n` others. -/
def Registration.place (r : Registration) (n : Nat) : Option Text :=
  if n < maxPools then r.info.name else none

/-- `n` pools are there already. -/
def expected : Nat → List Registration → List InspectPool
  | _, [] => []
  | n, r :: rs =>
    match r.place n with
    | some name => r.info.pool name (r.fields.take maxFields) :: expected (n + 1) rs
    | none => expected n rs

/-- Every pool has the fields that were registered for it and no others. -/
def Attributed (rs : List Registration) : Prop := registry rs = expected 0 rs

/-- The fields of the dropped pools up to the next that is kept. -/
def spilled : Nat → List Registration → List InspectField
  | _, [] => []
  | n, r :: rs => if (r.place n).isSome then [] else r.fields ++ spilled n rs

/-- Between a pool and the next that is kept no field is registered, or the table of the first is
full. -/
def NoSpill : Nat → List Registration → Prop
  | _, [] => True
  | n, r :: rs =>
    if (r.place n).isSome then
      (spilled (n + 1) rs = [] ∨ maxFields ≤ r.fields.length) ∧ NoSpill (n + 1) rs
    else NoSpill n rs

/-! ## What is in the registry -/

theorem foldl_field (ps : List InspectPool) (p : InspectPool) (name : Text)
    (fs : List InspectField) (hp : p.fields.length ≤ maxFields) :
    (fs.map (Call.field name)).foldl Call.run (ps ++ [p]) =
      ps ++ [{ p with fields := (p.fields ++ fs).take maxFields }] := by
  induction fs generalizing p with
  | nil =>
    rw [List.append_nil, List.take_of_length_le hp]
    rfl
  | cons f fs ih =>
    rw [List.map_cons, List.foldl_cons, Call.run, archeInspectField, List.getLast?_concat]
    dsimp only
    split
    · next hfull =>
      have htake : (p.fields ++ f :: fs).take maxFields = (p.fields ++ fs).take maxFields := by
        rw [List.take_append_of_le_length hfull, List.take_append_of_le_length hfull]
      rw [ih p hp, htake]
    · next hroom =>
      rw [List.dropLast_concat, ih]
      · simp
      · rw [List.length_append, List.length_singleton]
        omega

/-- Before the first pool a field has no effect. -/
theorem foldl_field_nil (name : Text) (fs : List InspectField) :
    (fs.map (Call.field name)).foldl Call.run [] = [] := by
  induction fs with
  | nil => rfl
  | cons f fs ih => exact ih

/-- What the pools are given: their own fields, then what is spilled. -/
def given : Nat → List Registration → List InspectPool
  | _, [] => []
  | n, r :: rs =>
    match r.place n with
    | some name =>
      r.info.pool name ((r.fields ++ spilled (n + 1) rs).take maxFields) :: given (n + 1) rs
    | none => given n rs

theorem register_eq (ps : List InspectPool) (r : Registration) :
    Call.run ps (.register r.info) =
      match r.place ps.length with
      | some name => ps ++ [r.info.pool name []]
      | none => ps := by
  rw [Call.run, archeInspectRegister, Registration.place]
  cases r.info.name with
  | none => simp
  | some name =>
    dsimp only
    split
    · next hfull => rw [if_neg (by omega)]
    · next hroom => rw [if_pos (by omega)]

theorem take_take_append {α : Type} (k : Nat) (as bs : List α) :
    (as.take k ++ bs).take k = (as ++ bs).take k := by
  rw [List.take_append, List.take_append, List.take_take, List.length_take, Nat.min_self]
  congr 2
  omega

/-- The registrations that follow a pool. -/
theorem foldl_calls (ps : List InspectPool) (p : InspectPool) (hp : p.fields.length ≤ maxFields)
    (rs : List Registration) :
    (rs.flatMap Registration.calls).foldl Call.run (ps ++ [p]) =
      ps ++ { p with fields := (p.fields ++ spilled (ps.length + 1) rs).take maxFields } ::
        given (ps.length + 1) rs := by
  induction rs generalizing ps p with
  | nil =>
    rw [spilled, List.append_nil, List.take_of_length_le hp]
    rfl
  | cons r rs ih =>
    have hlen : (ps ++ [p]).length = ps.length + 1 := by simp
    rw [List.flatMap_cons, List.foldl_append, Registration.calls, List.foldl_cons, register_eq,
      hlen, spilled, given]
    cases hplace : r.place (ps.length + 1) with
    | none =>
      -- The pool is dropped, its fields go to `p`.
      dsimp only
      rw [foldl_field ps p _ _ hp, ih ps _ (List.length_take_le _ _)]
      dsimp only
      rw [take_take_append, List.append_assoc]
      simp
    | some name =>
      have hnext := foldl_field (ps ++ [p]) (r.info.pool name []) (r.info.name.getD []) r.fields
        (Nat.zero_le _)
      dsimp only
      rw [hnext, ih (ps ++ [p]) _ (List.length_take_le _ _), hlen]
      simp only [Option.isSome_some, if_true, List.append_nil, List.take_of_length_le hp,
        PoolInfo.pool, List.nil_append, take_take_append, List.append_assoc, List.singleton_append]

theorem registry_eq (rs : List Registration) : registry rs = given 0 rs := by
  unfold registry
  induction rs with
  | nil => rfl
  | cons r rs ih =>
    rw [List.flatMap_cons, List.foldl_append, Registration.calls, List.foldl_cons, register_eq,
      given]
    cases hplace : r.place 0 with
    | none =>
      dsimp only
      rw [foldl_field_nil, ih]
    | some name =>
      have hfields := foldl_field [] (r.info.pool name []) (r.info.name.getD []) r.fields
        (Nat.zero_le _)
      have hrest := foldl_calls [] (r.info.pool name (r.fields.take maxFields))
        (List.length_take_le _ _) rs
      dsimp only
      rw [hfields]
      refine hrest.trans ?_
      simp only [PoolInfo.pool, List.nil_append, take_take_append, List.length_nil, Nat.zero_add]

/-! ## The result -/

theorem take_append_eq_iff {α : Type} (k : Nat) (as bs : List α) :
    (as ++ bs).take k = as.take k ↔ bs = [] ∨ k ≤ as.length := by
  rw [List.take_append, List.append_right_eq_self]
  constructor
  · intro h
    rcases List.take_eq_nil_iff.mp h with h | h
    · exact .inr (by omega)
    · exact .inl h
  · rintro (rfl | h)
    · exact List.take_nil
    · rw [Nat.sub_eq_zero_of_le h, List.take_zero]

theorem given_eq_iff (n : Nat) (rs : List Registration) :
    given n rs = expected n rs ↔ NoSpill n rs := by
  induction rs generalizing n with
  | nil => exact iff_of_true rfl trivial
  | cons r rs ih =>
    rw [given, expected, NoSpill]
    cases r.place n with
    | none => exact ih n
    | some name =>
      have hfields : r.info.pool name ((r.fields ++ spilled (n + 1) rs).take maxFields) =
          r.info.pool name (r.fields.take maxFields) ↔
          (r.fields ++ spilled (n + 1) rs).take maxFields = r.fields.take maxFields :=
        ⟨fun h => congrArg InspectPool.fields h, fun h => by rw [h]⟩
      dsimp only
      rw [List.cons_eq_cons, hfields, take_append_eq_iff, ih (n + 1)]
      exact (if_pos rfl).symm ▸ Iff.rfl

/-- The registry is right for as long as no dropped pool has fields that the last pool takes. -/
theorem attributed_iff (rs : List Registration) : Attributed rs ↔ NoSpill 0 rs := by
  rw [Attributed, registry_eq]
  exact given_eq_iff 0 rs

/-- A pool without fields. -/
def barePool : Registration :=
  ⟨⟨some "A".toList, 0, false, 1, 0, 8, 16, 24, -1⟩, []⟩

/-- A pool with one field. -/
def onePool : Registration :=
  ⟨⟨some "B".toList, 4096, false, 1, 0, 8, 16, 24, -1⟩,
    [⟨"x".toList, .i32, .column, 32, 1, 4⟩]⟩

theorem spill_bare (k n : Nat) (h : n + k + 1 = maxPools) :
    ¬ NoSpill n (List.replicate (k + 1) barePool ++ [onePool]) := by
  induction k generalizing n with
  | zero =>
    have hkept : (barePool.place n).isSome = true := by
      rw [Registration.place, if_pos (by omega)]
      rfl
    have hdropped : onePool.place (n + 1) = none := by
      rw [Registration.place, if_neg (by omega)]
    rw [List.replicate_one, List.singleton_append, NoSpill, if_pos hkept, spilled, hdropped]
    rintro ⟨hnone | hfull, -⟩
    · cases hnone
    · revert hfull
      decide
  | succ k ih =>
    have hkept : (barePool.place n).isSome = true := by
      rw [Registration.place, if_pos (by omega)]
      rfl
    rw [List.replicate_succ, List.cons_append, NoSpill, if_pos hkept]
    exact fun h' => ih (n + 1) (by omega) h'.2

/-- The field of pool number 257 is found in pool number 256. -/
theorem not_attributed : ¬ ∀ rs, Attributed rs := by
  intro h
  have hwrong := h (List.replicate 256 barePool ++ [onePool])
  rw [Attributed, registry_eq, given_eq_iff] at hwrong
  exact spill_bare 255 0 rfl hwrong

end Arche.Runtime.Inspect
