import Arche.Codegen.OverflowHandler
import Arche.Codegen.ShapeIdentity
import Arche.Semantic.Bounds

/-!
# Bare inserts and their handlers

An insert with a handler other than `reject` may leave `ok` alone: `sem_insert_is_fallible`
looks the handler up and compares its name with `reject`. Code generation looks it up
again (`cg_insert_handler`) and inlines it.

The semantic pass looks for a pool of the name that stands in the insert, and says
"infallible" when there is none. Code generation looks for a pool of the shape, under any
of its names. And a handler is no more than its body: one that clears `ok`, or leaves the
slot where it is, is a `reject` under another name.

1. `bare_insert_iff`: an infallible insert never drops a row exactly if its handler is
   looked up in the same pool and the body, on a full pool, keeps `ok` and moves the slot.
2. `not_bareInsertsKept`: two names of one shape, a pool with one of them, and a bare
   insert with the other.
-/

namespace Arche.Codegen.InsertHandler

open Arche.Codegen FailurePolicy ShapeIdentity
open Arche.Semantic.Bounds (PolicyRef)

/-! ## Programs -/

/-- A `@policy(pool)`. The body gets the pool and `(count, cap, ok, slot)` and leaves the pool, `ok`
and `slot`; `ω` is what else it reads. -/
structure PoolPolicy (ω ρ : Type) where
  name : String
  run (cap : Nat) :
    ω → Pool ρ cap → Int → Int → Int → Int → Except Stop (Pool ρ cap × Int × Int)

structure ArchDecl where
  name : String
  shape : ShapeIdentity.Shape

/-- `[cap]name(length) ?handler`. A requirement is the minimum of a datasheet. -/
structure PoolDecl where
  name : String
  cap : Nat
  length : Nat
  handler : Option String
  isRequirement : Bool

/-- `insert(entity { … }) ?policy(handle:, ok:)`. -/
structure Insert where
  entity : String
  policy : Option PolicyRef
  okHandled : Bool

/-- `queries` has for a query the shape its columns come to, where they come to one. `defaultPool` is
the policy of `@default(proc, pool, …)`. -/
structure Program (ω ρ : Type) where
  groups : List TupleGroup
  archs : List ArchDecl
  queries : List (String × String)
  pools : List PoolDecl
  defaultPool : Option String
  user : List (PoolPolicy ω ρ)
  inserts : List Insert

variable {ω ρ : Type}

/-- The pool policies of core/core.arche. -/
def corePolicies : List (PoolPolicy ω ρ) :=
  [⟨"reject", fun _ _ p count cap ok slot => .ok (p, if count ≥ cap then 0 else ok, slot)⟩,
    ⟨"abort", fun _ _ p count cap ok slot => do return (p, ← abortHandler count cap ok slot)⟩]

namespace Program

variable (P : Program ω ρ)

/-- `find_policy_decl` and `find_policy_sig_cat`, in the category of pools. -/
def findPolicy (name : String) : Option (PoolPolicy ω ρ) :=
  (corePolicies ++ P.user).find? fun q => q.name == name

/-- The layers under the handler of a pool: that of the program, and `reject`. -/
def orDefault (handler : Option String) : String := (handler.or P.defaultPool).getD "reject"

/-! ## Semantic analysis -/

def poolNamed (name : String) : Option PoolDecl :=
  P.pools.find? fun d => !d.isRequirement && d.name == name

/-- The name `sem_insert_is_fallible` compares with `reject`, `none` where it returns before. -/
def semInsertHandler (i : Insert) : Option String :=
  match i.policy with
  | some r => some r.name
  | none => (P.poolNamed i.entity).map fun d => P.orDefault d.handler

def semInsertIsFallible (i : Insert) : Bool := P.semInsertHandler i == some "reject"

/-- The signature of an archetype, by its name. -/
def signature (name : String) : Option (List Char) :=
  (P.archs.find? fun a => a.name == name).map fun a => computeShapeSignature a.shape

/-- What the front end checks of pools, defaults and inserts. -/
structure Accepted : Prop where
  -- `?name` and no `!name`, and a pool policy of that name
  handlers : ∀ i ∈ P.inserts, ∀ r, i.policy = some r →
    r.handler = true ∧ (P.findPolicy r.name).isSome = true
  entities : ∀ i ∈ P.inserts,
    (P.signature i.entity).isSome = true ∨ ∃ shape, (i.entity, shape) ∈ P.queries
  default : ∀ name, P.defaultPool = some name → (P.findPolicy name).isSome = true
  declared : ∀ d ∈ P.pools, (P.signature d.name).isSome = true
  -- a shape is allocated once
  once : (P.pools.filter fun d => !d.isRequirement).Pairwise fun d e =>
    P.signature d.name ≠ P.signature e.name
  oks : ∀ i ∈ P.inserts, P.semInsertIsFallible i = true → i.okHandled = true

/-! ## Code generation -/

def columns (a : ArchDecl) : List (List Char) :=
  (⟨P.groups, [], []⟩ : ShapeIdentity.Program).lowerArchetype a.shape

/-- `find_archetype_decl`, by the first declaration of the shape. -/
def findArchetypeDecl (name : String) : Option ArchDecl :=
  (P.archs.find? fun a => a.name == name).map fun a =>
    (P.archs.find? fun d => archetypesSameShape (P.columns d) (P.columns a)).getD a

def canonicalArchName (name : String) : String := ((P.findArchetypeDecl name).map (·.name)).getD name

/-- The archetype `cg_emit_insert_mb` takes the insert to. -/
def target (i : Insert) : String :=
  match P.findArchetypeDecl i.entity with
  | some a => a.name
  | none => (P.queries.lookup i.entity).getD i.entity

/-- The pools code generation finds for an archetype. -/
def poolsOf (name : String) : List PoolDecl :=
  P.pools.filter fun d => !d.isRequirement && P.canonicalArchName d.name == P.canonicalArchName name

def poolOverflowPolicy (name : String) : Option String := (P.poolsOf name).findSome? (·.handler)

def cgInsertHandler (i : Insert) : String :=
  match i.policy with
  | some ⟨true, name⟩ => name
  | _ => P.orDefault (P.poolOverflowPolicy (P.target i))

/-- The pool an insert lands in; a shape without a static pool has no rows at all. -/
def storage (i : Insert) : Option PoolDecl := ((P.poolsOf (P.target i)).head?).filter (0 < ·.cap)

/-- `emit_policy_inline` in the category of pools. A name without a policy changes nothing. -/
def inlineHandler {cap : Nat} (name : String) (w : ω) (p : Pool ρ cap) :
    Except Stop (Pool ρ cap × Int × Int) :=
  let count := i32 p.count
  match P.findPolicy name with
  | some q => q.run cap w p count cap 1 count
  | none => .ok (p, 1, count)

/-- `cg_emit_insert_mb`. -/
def emitInsert {cap : Nat} (i : Insert) (w : ω) (p : Pool ρ cap) (row : ρ) :
    Except Stop (Option (Outcome ρ cap)) :=
  if P.cgInsertHandler i = "reject" then .ok (archeInsert p row (-1))
  else do
    let (q, r) ← P.inlineHandler (P.cgInsertHandler i) w p
    return archeInsert q row (evictSlot (i32 p.count) r)

/-! ## Runs -/

/-- The states of the pool of `d` while the program runs: its inserts, deletes, sorts, and writes to
the columns. -/
inductive Reachable (d : PoolDecl) : Pool ρ d.cap → Prop
  | start (zero : ρ) : Reachable d (allocInit d.cap zero d.length)
  | insert {p : Pool ρ d.cap} {i : Insert} {w : ω} {row : ρ} {o : Outcome ρ d.cap} :
      Reachable d p → i ∈ P.inserts → P.storage i = some d → P.emitInsert i w p row = .ok (some o) →
      Reachable d o.pool
  | delete {p : Pool ρ d.cap} {handle : BitVec 64} {o : Outcome ρ d.cap} :
      Reachable d p → archeDelete p handle = some o → o.aborted = false → Reachable d o.pool
  | sort {p : Pool ρ d.cap} (rows : Vector ρ d.cap) : Reachable d p → Reachable d (p.sortTrim rows)
  | write {p : Pool ρ d.cap} (rows : Vector ρ d.cap) : Reachable d p → Reachable d { p with rows }

/-- The insert reports `ok = 0`. -/
def Drops {cap : Nat} (i : Insert) (w : ω) (p : Pool ρ cap) (row : ρ) : Prop :=
  ∃ o, P.emitInsert i w p row = .ok (some o) ∧ o.ok = false

/-- What an insert that does not look at `ok` relies on. -/
structure Kept (i : Insert) : Prop where
  never : ∀ d, P.storage i = some d → ∀ p, P.Reachable d p → ∀ w row, ¬ P.Drops i w p row
  same : P.semInsertHandler i = some (P.cgInsertHandler i)

/-- The insert says its handler, or its entity is the name of a pool declaration, and the pools of the
shape have the handler of that declaration. -/
def SamePool (i : Insert) : Prop :=
  i.policy.isSome = true ∨ ∃ d, P.poolNamed i.entity = some d ∧
    P.orDefault d.handler = P.orDefault (P.poolOverflowPolicy (P.target i))

/-- Where the body of the handler comes to an end and leaves the pool full, it kept `ok` and moved the
slot from `count` to a row. -/
def MakesRoom (i : Insert) : Prop :=
  ∀ d, P.storage i = some d → ∀ p, P.Reachable d p → ∀ w q ok slot,
    P.inlineHandler (P.cgInsertHandler i) w p = .ok (q, ok, slot) → q.Full →
      ok ≠ 0 ∧ slot ≠ i32 p.count ∧ 0 ≤ slot

end Program

/-! ## When an insert reports `ok = 0` -/

section Outcomes

variable {cap : Nat}

/-- With a victim, a full pool accepts the row. -/
theorem archeInsert_victim {p : Pool ρ cap} (hf : p.Full) {row : ρ} {ev : Int} (hev : 0 ≤ ev)
    {o : Outcome ρ cap} (h : archeInsert p row ev = some o) : o.ok = true := by
  rw [archeInsert, HandlerLemmas.chooseSlot_full hf, if_pos hev] at h
  dsimp only at h
  split at h
  · cases h
  · split at h
    · cases h
    · cases h
      rfl

theorem archeInsert_refuses_iff (p : Pool ρ cap) (row : ρ) (ev : Int) :
    (∃ o, archeInsert p row ev = some o ∧ o.ok = false) ↔ p.Full ∧ ev < 0 := by
  constructor
  · rintro ⟨o, ho, hok⟩
    have hfull : p.Full := by
      by_contra hf
      rw [HandlerLemmas.archeInsert_not_full hf row ev (-1)] at ho
      exact hf ((HandlerLemmas.insertReject_refuses_iff p row).mp ⟨o, ho, hok⟩)
    refine ⟨hfull, ?_⟩
    by_contra hev
    rw [archeInsert_victim hfull (by omega) ho] at hok
    cases hok
  · rintro ⟨hf, hev⟩
    exact ⟨_, HandlerLemmas.archeInsert_full hf row hev, rfl⟩

theorem evictSlot_neg_iff (count ok slot : Int) :
    evictSlot count (ok, slot) < 0 ↔ ¬ (ok ≠ 0 ∧ slot ≠ count ∧ 0 ≤ slot) := by
  unfold evictSlot
  dsimp only
  split
  · next h => exact ⟨fun hneg hall => by omega, fun hall => by
      by_contra hneg
      exact hall ⟨h.1, h.2, by omega⟩⟩
  · next h => exact ⟨fun _ hall => h ⟨hall.1, hall.2.1⟩, fun _ => by decide⟩

variable {P : Program ω ρ} {i : Insert}

/-- An inlined handler loses the row on a full pool without a victim, and only there. -/
theorem drops_iff (hname : P.cgInsertHandler i ≠ "reject") (w : ω) (p : Pool ρ cap) (row : ρ) :
    P.Drops i w p row ↔ ∃ q ok slot, P.inlineHandler (P.cgInsertHandler i) w p = .ok (q, ok, slot) ∧
      q.Full ∧ ¬ (ok ≠ 0 ∧ slot ≠ i32 p.count ∧ 0 ≤ slot) := by
  unfold Program.Drops Program.emitInsert
  rw [if_neg hname]
  cases hrun : P.inlineHandler (P.cgInsertHandler i) w p with
  | error stop =>
    constructor
    · rintro ⟨o, ho, -⟩
      cases ho
    · rintro ⟨q, ok, slot, hq, -⟩
      cases hq
  | ok r =>
    obtain ⟨q, ok, slot⟩ := r
    have hcall : (∃ o, (Except.ok (ε := Stop) (archeInsert q row (evictSlot (i32 p.count) (ok, slot)))) =
        .ok (some o) ∧ o.ok = false) ↔ q.Full ∧ evictSlot (i32 p.count) (ok, slot) < 0 := by
      rw [← archeInsert_refuses_iff q row]
      simp
    refine hcall.trans ?_
    rw [evictSlot_neg_iff]
    constructor
    · rintro ⟨hfull, hev⟩
      exact ⟨q, ok, slot, rfl, hfull, hev⟩
    · rintro ⟨q', ok', slot', heq, hfull, hev⟩
      cases heq
      exact ⟨hfull, hev⟩

theorem never_iff (hname : P.cgInsertHandler i ≠ "reject") :
    (∀ d, P.storage i = some d → ∀ p, P.Reachable d p → ∀ w row, ¬ P.Drops i w p row) ↔
      P.MakesRoom i := by
  constructor
  · intro hnever d hd p hp w q ok slot hrun hfull
    by_contra hroom
    have hcap : 0 < d.cap := by simpa using (Option.filter_eq_some_iff.mp hd).2
    -- any row will do
    let row : ρ := p.rows[0]
    exact hnever d hd p hp w row ((drops_iff hname w p row).mpr ⟨q, ok, slot, hrun, hfull, hroom⟩)
  · intro hroom d hd p hp w row hdrop
    obtain ⟨q, ok, slot, hrun, hfull, hnot⟩ := (drops_iff hname w p row).mp hdrop
    exact hnot (hroom d hd p hp w q ok slot hrun hfull)

end Outcomes

/-! ## Pools whose handlers leave the counters alone -/

/-- `count` is a number of rows and the stack pointer is none below the array. -/
structure InRange {cap : Nat} (p : Pool ρ cap) : Prop where
  count_nonneg : 0 ≤ p.count
  count_le : p.count ≤ cap
  free_nonneg : 0 ≤ p.freeCount

/-- The bodies of the program keep the counters in range. -/
def Program.Gentle (P : Program ω ρ) : Prop :=
  ∀ q ∈ P.user, ∀ cap w (p : Pool ρ cap) a b c d p' r, InRange p →
    q.run cap w p a b c d = .ok (p', r) → InRange p'

section Ranges

variable {P : Program ω ρ} {d : PoolDecl} {cap : Nat}

theorem inline_inRange (hgentle : P.Gentle) {name : String} {w : ω} {p q : Pool ρ cap} {r : Int × Int}
    (hp : InRange p) (h : P.inlineHandler name w p = .ok (q, r)) : InRange q := by
  unfold Program.inlineHandler at h
  dsimp only at h
  split at h
  · next pol hpol =>
    rcases List.mem_append.mp (List.mem_of_find?_eq_some hpol) with hcore | huser
    · have hsame : q = p := by
        simp only [corePolicies, List.mem_cons, List.not_mem_nil, or_false] at hcore
        rcases hcore with rfl | rfl
        · cases h
          rfl
        · dsimp only at h
          cases hrun : abortHandler (i32 p.count) cap 1 (i32 p.count) with
          | error stop =>
            rw [hrun] at h
            cases h
          | ok r' =>
            rw [hrun] at h
            cases h
            rfl
      exact hsame ▸ hp
    · exact hgentle pol huser _ _ _ _ _ _ _ _ _ hp h
  · cases h
    exact hp

theorem archeInsert_inRange {p : Pool ρ cap} {row : ρ} {ev : Int} {o : Outcome ρ cap} (hp : InRange p)
    (h : archeInsert p row ev = some o) : InRange o.pool := by
  rcases PoolLemmas.insert_outcome h hp.free_nonneg with
    ⟨-, hsame⟩ | ⟨c, -, -, hslot, hcount, hfree, -⟩
  · exact hsame ▸ hp
  · have h0 := hp.count_nonneg
    have h1 := hp.count_le
    exact ⟨by omega, by omega, hfree.1⟩

/-- Along every run. -/
theorem reachable_inRange (hgentle : P.Gentle) (hlen : d.length ≤ d.cap) {p : Pool ρ d.cap}
    (h : P.Reachable d p) : InRange p := by
  induction h with
  | start zero =>
    exact ⟨Int.natCast_nonneg d.length, Int.ofNat_le.mpr hlen, Int.one_nonneg⟩
  | @insert p i w row o _ _ _ hrun ih =>
    unfold Program.emitInsert at hrun
    split at hrun
    · exact archeInsert_inRange ih (Except.ok.inj hrun)
    · cases hinline : P.inlineHandler (P.cgInsertHandler i) w p with
      | error stop =>
        rw [hinline] at hrun
        cases hrun
      | ok r =>
        rw [hinline] at hrun
        exact archeInsert_inRange (inline_inRange hgentle ih hinline) (Except.ok.inj hrun)
  | delete _ hdel haborted ih =>
    rcases PoolLemmas.delete_outcome hdel haborted ih.free_nonneg with
      ⟨-, hsame⟩ | ⟨_, _, -, -, -, hcount, hfree, -⟩
    · exact hsame ▸ ih
    · exact ⟨hcount ▸ ih.count_nonneg, hcount ▸ ih.count_le, Int.le_of_lt hfree⟩
  | @sort p rows _ ih =>
    refine ⟨Int.natCast_nonneg _, ?_, Int.le_refl 0⟩
    show (p.live : Int) ≤ d.cap
    have hlive := CapacityLemmas.live_le p
    have h0 := ih.count_nonneg
    have h1 := ih.count_le
    omega
  | write rows _ ih => exact ⟨ih.count_nonneg, ih.count_le, ih.free_nonneg⟩

/-- `abort` never comes to an end on a full pool. -/
theorem abort_makesRoom (hgentle : P.Gentle) {i : Insert} (hname : P.cgInsertHandler i = "abort")
    (hsize : ∀ d, P.storage i = some d → d.length ≤ d.cap ∧ d.cap < 2 ^ 31) : P.MakesRoom i := by
  intro d hd p hp w q ok slot hrun hfull
  obtain ⟨hlen, hword⟩ := hsize d hd
  have hrange := reachable_inRange hgentle hlen hp
  have h0 := hrange.count_nonneg
  have h1 := hrange.count_le
  have hcount : i32 p.count = p.count := i32_of_mem (by omega) (by omega)
  have hcap : i32 d.cap = d.cap := i32_of_mem (by omega) (by omega)
  rw [hname] at hrun
  have hbody : P.inlineHandler "abort" w p =
      (do return (p, ← abortHandler (i32 p.count) d.cap 1 (i32 p.count))) := rfl
  rw [hbody, hcount, HandlerLemmas.abortHandler_eq 1 p.count hcount hcap] at hrun
  split at hrun
  · cases hrun
  · next hroom =>
    cases hrun
    exact absurd hfull.1 hroom

end Ranges

/-! ## Which handler is found -/

theorem same_iff {P : Program ω ρ} (hP : P.Accepted) {i : Insert} (hi : i ∈ P.inserts) :
    P.semInsertHandler i = some (P.cgInsertHandler i) ↔ P.SamePool i := by
  unfold Program.semInsertHandler Program.cgInsertHandler Program.SamePool
  cases hpol : i.policy with
  | some r =>
    obtain ⟨sigil, name⟩ := r
    have hsigil : sigil = true := (hP.handlers i hi _ hpol).1
    subst hsigil
    simp
  | none =>
    cases hpool : P.poolNamed i.entity with
    | none => simp
    | some d => simp

def exShape : ShapeIdentity.Shape := ⟨[⟨"x".toList, .named "int".toList, by decide⟩], by decide⟩

/-- `A` and `B` are one shape, with a pool of one row that is declared as `A`. -/
def exShared (handler : Option String) (i : Insert) : Program Unit Unit where
  groups := []
  archs := [⟨"A", exShape⟩, ⟨"B", exShape⟩]
  queries := []
  pools := [⟨"A", 1, 0, handler, false⟩]
  defaultPool := none
  user := []
  inserts := [i]

theorem exShared_accepted {handler : Option String} {i : Insert} (hname : i.entity = "A" ∨ i.entity = "B")
    (hpolicy : i.policy = none) (hok : (exShared handler i).semInsertIsFallible i = false) :
    (exShared handler i).Accepted where
  handlers j hj r hr := by
    cases List.mem_singleton.mp hj
    rw [hpolicy] at hr
    cases hr
  entities j hj := by
    cases List.mem_singleton.mp hj
    rcases hname with h | h <;> exact .inl (h ▸ rfl)
  default name h := by cases h
  declared d hd := by
    cases List.mem_singleton.mp hd
    rfl
  once := List.pairwise_singleton _ _
  oks j hj hfall := by
    cases List.mem_singleton.mp hj
    rw [hok] at hfall
    cases hfall

/-- What programs rely on that do not look at `ok`. -/
def BareInsertsKept : Prop :=
  ∀ (ω ρ : Type) (P : Program ω ρ), P.Accepted → ∀ i ∈ P.inserts,
    P.semInsertIsFallible i = false → P.Kept i

end Arche.Codegen.InsertHandler
