import Mathlib.Data.List.Nodup
import Mathlib.Tactic.Common

/-!
# Calls of function groups

A group is a list of funcs that share a name, and a call of it is resolved three
times: `call_type_id` of semantic.c takes the type of the call from the first member
whose parameter types are those of the arguments, `analyze_expression` counts the
members that fit when every argument is an `int`, `float` or `char`, and
`find_group_member_for_call` of codegen.c compares the scalar kinds the types are
kept as, with the first member as its fallback.

* An `int` that comes from a literal and one that is named are different type ids;
  the diagnosis compares through the displayed name.
* Parameters and arguments are kept as `Ty.tag` says: a distinct type as its backing.

1. `overloadsAgree_iff`: when the three take the same member.
2. `not_overloadsAgree`: a distinct type over `float` beside `float`.
-/

namespace Arche.Semantic.Overloads

/-! ## Types -/

inductive Prim
  | void | bool | int | float | char | str
deriving DecidableEq, Repr

/-- Interned types. `distinct` is a nominal with a backing. `other` stands for the remaining
structural kinds. -/
inductive Ty
  | unknown
  | prim (p : Prim)
  | nominal (name : String)
  | distinct (name : String) (backing : Ty)
  | slice (elem : Ty)
  | array (len : Nat) (elem : Ty)
  | other (id : Nat)
deriving DecidableEq, Repr

/-- `TYK_NOMINAL` or `TYK_PRIM`. -/
def Ty.isNamed : Ty → Bool
  | nominal _ => true
  | distinct _ _ => true
  | prim _ => true
  | _ => false

/-- The scalar kinds `find_group_member_for_call` tells apart. -/
inductive Tag
  | int (width : Nat) (signed : Bool)
  | float
  | char
  | other
deriving DecidableEq, Repr

/-- `hir_parse_int_width`. -/
def parseIntWidth : String → Option (Nat × Bool)
  | "byte" => some (8, false)
  | "i8" => some (8, true)
  | "i16" => some (16, true)
  | "i32" => some (32, true)
  | "i64" => some (64, true)
  | "i128" => some (128, true)
  | "u8" => some (8, false)
  | "u16" => some (16, false)
  | "u32" => some (32, false)
  | "u64" => some (64, false)
  | "u128" => some (128, false)
  | _ => none

/-- `map_type_str`, as far as the scalar kinds go. -/
def nameTag (name : String) : Tag :=
  if name = "int" then .int 32 true
  else match parseIntWidth name with
    | some (w, s) => .int w s
    | none =>
      if name = "float" ∨ name = "double" then .float else if name = "char" then .char else .other

/-- `map_type_id`. -/
def Ty.tag : Ty → Tag
  | prim .int => .int 32 true
  | prim .float => .float
  | prim .char => .char
  | nominal name => nameTag name
  | distinct _ backing => backing.tag
  | _ => .other

/-! ## Groups -/

/-- A member of a group. Parameter types are interned from names, and the name `int` is the nominal
`i32`. -/
structure Member where
  name : String
  params : List Ty
  ret : Option Ty
  named : Ty.prim .int ∉ params
deriving DecidableEq

/-- A group that passed `analyze_func_group`. -/
structure Group where
  members : List Member
  nonempty : members ≠ []
  distinct : members.Pairwise fun m m' => m.params ≠ m'.params

/-- An argument is of a parameter's type. -/
def sameType (a p : Ty) : Bool := a != .unknown && p.isNamed && a == p

/-- The arguments are of the parameters' types, place by place. -/
def fits (test : Ty → Ty → Bool) (args params : List Ty) : Bool :=
  args.length == params.length && (args.zip params).all fun (a, p) => test a p

/-- The member `call_type_id` takes the type of the call from. -/
def callTypeId (g : Group) (args : List Ty) : Option Member :=
  g.members.find? fun m => fits sameType args m.params && m.ret.isSome

/-- The type interned from the displayed name of a scalar. -/
def reintern : Ty → Ty
  | .prim .int => .nominal "i32"
  | a => a

def canDiagnose (args : List Ty) : Bool :=
  args.all fun a => a == .prim .int || a == .prim .float || a == .prim .char

/-- The members the diagnosis of a call counts. -/
def diagnosed (g : Group) (args : List Ty) : List Member :=
  g.members.filter fun m => fits sameType (args.map reintern) m.params

/-- The call is not rejected for its group. -/
def Accepted (g : Group) (args : List Ty) : Prop :=
  canDiagnose args = true → (diagnosed g args).length = 1

/-- A parameter that is no scalar does not tell members apart. -/
def sameTag (a p : Ty) : Bool := p.tag == .other || a.tag == p.tag

/-- `find_group_member_for_call`. -/
def findGroupMemberForCall (g : Group) (args : List Ty) : Option Member :=
  match g.members.filter fun m => fits sameTag args m.params with
  | [m] => some m
  | _ => none

/-- The member the generated code calls. -/
def calledMember (g : Group) (args : List Ty) : Option Member :=
  (findGroupMemberForCall g args).or g.members.head?

/-- A member whose parameters are of the types of the arguments. -/
def Applicable (m : Member) (args : List Ty) : Prop := args.map reintern = m.params

/-- The three resolutions of a call take the same member, and no two members are applicable. -/
def OverloadsAgree (g : Group) (args : List Ty) : Prop :=
  (∃ m, callTypeId g args = some m ∧ calledMember g args = some m ∧
    (canDiagnose args = true → ∀ m' ∈ diagnosed g args, m' = m)) ∧
  ∀ m ∈ g.members, ∀ m' ∈ g.members, Applicable m args → Applicable m' args → m = m'

/-- The argument types are those of a member that has a result, and no other member has the same
scalars, or the member is the first one. -/
def Discriminated (g : Group) (args : List Ty) : Prop :=
  ∃ m ∈ g.members, m.params = args ∧ (∀ a ∈ args, a.isNamed = true) ∧ m.ret.isSome = true ∧
    ((∀ m' ∈ g.members, fits sameTag args m'.params = true → m' = m) ∨ g.members.head? = some m)

/-! ## The three resolutions -/

theorem fits_sameType {args params : List Ty} :
    fits sameType args params = true ↔ params = args ∧ ∀ a ∈ args, a.isNamed = true := by
  induction args generalizing params with
  | nil => cases params <;> simp [fits]
  | cons a args ih =>
    cases params with
    | nil => simp [fits]
    | cons p params =>
      have hcons : fits sameType (a :: args) (p :: params) = true ↔
          sameType a p = true ∧ fits sameType args params = true := by
        simp [fits, and_left_comm]
      have hsame : sameType a p = true ↔ p = a ∧ a.isNamed = true := by
        constructor
        · intro h
          simp only [sameType, Bool.and_eq_true, beq_iff_eq] at h
          exact ⟨h.2.symm, h.2 ▸ h.1.2⟩
        · rintro ⟨rfl, hp⟩
          cases p <;> simp_all [sameType, Ty.isNamed]
      rw [hcons, hsame, ih]
      simp only [List.cons.injEq, List.forall_mem_cons]
      constructor
      · rintro ⟨⟨hp, ha⟩, hps, hargs⟩
        exact ⟨⟨hp, hps⟩, ha, hargs⟩
      · rintro ⟨⟨hp, hps⟩, ha, hargs⟩
        exact ⟨⟨hp, ha⟩, hps, hargs⟩

theorem fits_sameTag_self (args : List Ty) : fits sameTag args args = true := by
  induction args with
  | nil => rfl
  | cons a args ih => simpa [fits, sameTag] using ih

section Group

variable {g : Group} {args : List Ty} {m m' : Member}

/-- A member is one by its parameter types. -/
theorem Group.eq_of_params (hm : m ∈ g.members) (hm' : m' ∈ g.members) (h : m.params = m'.params) :
    m = m' := by
  have hnodup : (g.members.map Member.params).Nodup := List.pairwise_map.mpr g.distinct
  exact List.inj_on_of_nodup_map hnodup hm hm' h

theorem Group.nodup (g : Group) : g.members.Nodup :=
  g.distinct.imp fun h heq => h (congrArg Member.params heq)

/-- No parameter is displayed by another name than it is interned by. -/
theorem map_reintern (m : Member) : m.params.map reintern = m.params := by
  have h : ∀ a ∈ m.params, reintern a = id a := by
    intro a ha
    unfold reintern
    split
    · exact absurd ha m.named
    · rfl
  exact (List.map_congr_left h).trans (List.map_id _)

theorem callTypeId_eq_some : callTypeId g args = some m ↔
    m ∈ g.members ∧ m.params = args ∧ (∀ a ∈ args, a.isNamed = true) ∧ m.ret.isSome = true := by
  constructor
  · intro h
    have htest := List.find?_some h
    rw [Bool.and_eq_true, fits_sameType] at htest
    exact ⟨List.mem_of_find?_eq_some h, htest.1.1, htest.1.2, htest.2⟩
  · rintro ⟨hm, hparams, hnamed, hret⟩
    have htest : (fits sameType args m.params && m.ret.isSome) = true := by
      rw [Bool.and_eq_true, fits_sameType]
      exact ⟨⟨hparams, hnamed⟩, hret⟩
    cases hfind : callTypeId g args with
    | none => exact absurd htest (List.find?_eq_none.mp hfind m hm)
    | some m' =>
      have htest' := List.find?_some hfind
      rw [Bool.and_eq_true, fits_sameType] at htest'
      rw [g.eq_of_params (List.mem_of_find?_eq_some hfind) hm (htest'.1.1.trans hparams.symm)]

/-- The members that fit by their scalars are one if and only if it is `m`. -/
theorem findGroupMemberForCall_eq_some (hm : m ∈ g.members)
    (hfits : fits sameTag args m.params = true) : findGroupMemberForCall g args = some m ↔
    ∀ m' ∈ g.members, fits sameTag args m'.params = true → m' = m := by
  have hmem : m ∈ g.members.filter fun m => fits sameTag args m.params :=
    List.mem_filter.mpr ⟨hm, hfits⟩
  unfold findGroupMemberForCall
  constructor
  · intro h m' hm' hfits'
    have hmem' : m' ∈ g.members.filter fun m => fits sameTag args m.params :=
      List.mem_filter.mpr ⟨hm', hfits'⟩
    split at h
    · next m₀ heq =>
      cases h
      rw [heq, List.mem_singleton] at hmem'
      exact hmem'
    · cases h
  · intro h
    have hnodup := g.nodup.filter fun m => fits sameTag args m.params
    have heq : (g.members.filter fun m => fits sameTag args m.params) = [m] := by
      have hall : ∀ m' ∈ g.members.filter fun m => fits sameTag args m.params, m' = m := by
        intro m' hm'
        obtain ⟨hm', hfits'⟩ := List.mem_filter.mp hm'
        exact h m' hm' hfits'
      cases hlist : g.members.filter fun m => fits sameTag args m.params with
      | nil =>
        rw [hlist] at hmem
        cases hmem
      | cons a rest =>
        rw [hlist] at hall hnodup
        have ha : a = m := hall a List.mem_cons_self
        cases rest with
        | nil => rw [ha]
        | cons b rest =>
          have hb : b = m := hall b (by simp)
          rw [ha, hb] at hnodup
          exact absurd hnodup (by simp)
    rw [heq]

/-- Of the members that fit by their scalars there is one, or none is found. -/
theorem findGroupMemberForCall_or (hm : m ∈ g.members) (hfits : fits sameTag args m.params = true) :
    findGroupMemberForCall g args = some m ∨ findGroupMemberForCall g args = none := by
  have hmem : m ∈ g.members.filter fun m => fits sameTag args m.params :=
    List.mem_filter.mpr ⟨hm, hfits⟩
  unfold findGroupMemberForCall
  split
  · next m₀ heq =>
    rw [heq, List.mem_singleton] at hmem
    exact .inl (by rw [hmem])
  · exact .inr rfl

end Group

/-- The three resolutions of a call take the same member if and only if the argument types are those
of a member and no other member has the same scalars, or the member is the first one. -/
theorem overloadsAgree_iff (g : Group) (args : List Ty) :
    OverloadsAgree g args ↔ Discriminated g args := by
  constructor
  · rintro ⟨⟨m, htype, hcalled, -⟩, -⟩
    obtain ⟨hm, hparams, hnamed, hret⟩ := callTypeId_eq_some.mp htype
    have hfits : fits sameTag args m.params = true := hparams ▸ fits_sameTag_self m.params
    refine ⟨m, hm, hparams, hnamed, hret, ?_⟩
    rcases Option.or_eq_some_iff.mp hcalled with hfound | ⟨-, hhead⟩
    · exact .inl ((findGroupMemberForCall_eq_some hm hfits).mp hfound)
    · exact .inr hhead
  · rintro ⟨m, hm, hparams, hnamed, hret, hdisc⟩
    have hfits : fits sameTag args m.params = true := hparams ▸ fits_sameTag_self m.params
    refine ⟨⟨m, callTypeId_eq_some.mpr ⟨hm, hparams, hnamed, hret⟩, ?_, ?_⟩, ?_⟩
    · rcases hdisc with hunique | hhead
      · have hfound := (findGroupMemberForCall_eq_some hm hfits).mpr hunique
        exact Option.or_eq_some_iff.mpr (.inl hfound)
      · rcases findGroupMemberForCall_or hm hfits with hfound | hnone
        · exact Option.or_eq_some_iff.mpr (.inl hfound)
        · exact Option.or_eq_some_iff.mpr (.inr ⟨hnone, hhead⟩)
    · intro _ m' hm'
      obtain ⟨hm', hfits'⟩ := List.mem_filter.mp hm'
      have hparams' := (fits_sameType.mp hfits').1
      rw [← hparams, map_reintern] at hparams'
      exact g.eq_of_params hm' hm hparams'
    · intro m hm m' hm' happ happ'
      exact g.eq_of_params hm hm' (happ.symm.trans happ')

/-- `f :: func { f_m, f_f }` over `f_m(x: meters)` and `f_f(x: float)`, with `meters :: float`. -/
def metersGroup : Group where
  members := [
    ⟨"f_m", [.distinct "meters" (.prim .float)], some (.prim .float), by decide⟩,
    ⟨"f_f", [.prim .float], some (.prim .float), by decide⟩]
  nonempty := by simp
  distinct := by simp

/-- A call of the group with a `float` is checked as one of `f_f` and runs `f_m`. -/
theorem not_overloadsAgree : Accepted metersGroup [.prim .float] ∧
    (callTypeId metersGroup [.prim .float]).map Member.name = some "f_f" ∧
    (calledMember metersGroup [.prim .float]).map Member.name = some "f_m" ∧
    ¬ OverloadsAgree metersGroup [.prim .float] := by
  have htype : (callTypeId metersGroup [.prim .float]).map Member.name = some "f_f" := by decide
  have hcalled : (calledMember metersGroup [.prim .float]).map Member.name = some "f_m" := by decide
  refine ⟨fun _ => by decide, htype, hcalled, ?_⟩
  rintro ⟨⟨m, hm, hm', -⟩, -⟩
  rw [hm] at htype
  rw [hm'] at hcalled
  simp_all

end Arche.Semantic.Overloads
