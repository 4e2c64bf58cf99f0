import Arche.Codegen.StringGlobals
import Arche.Lib.Probing

/-!
# The table of interned constants

`intern_global` keeps the constants of a module in an open-addressed table that doubles when it is
seven tenths full, and writes a definition for each new one. `StringGlobals.internGlobal` is what
this is for: a list of names with their texts.

* `interned_names` and `interned_rhs` are one array of pairs. `fnv_cstr` computes what
  `cg_content_hash` does.
* `none` stands for a walk that never ends.

1. `internAll_refines`: whatever is interned, no walk goes on for ever, the table gives the names
   and the errors of the list, and the module has one definition for each entry of the list.
-/

namespace Arche.Codegen.InternTable

open Arche.Lib.Probing
open Arche.Codegen.StringGlobals (Text Globals contentHash globalName fit)

/-- The table's part of `CodegenContext`, and the buffer of the globals. -/
structure Interned where
  cap : Nat
  count : Nat
  slots : Slots Text Text
  globals : Text
  hadError : Bool

/-- `fnv_cstr`. -/
def fnvCstr (s : Text) : Nat := (contentHash s).toNat

/-- `h & (cap - 1)`. -/
def bucket (cap : Nat) (s : Text) : Nat := fnvCstr s &&& (cap - 1)

def newCap (cap : Nat) : Nat := if cap = 0 then 64 else cap * 2

/-- A table that is seven tenths full is doubled. -/
def grow (t : Interned) : Option Interned :=
  if t.cap * 7 ≤ t.count * 10 then
    (rehash (newCap t.cap) fnvCstr t.slots t.cap).map fun s =>
      { t with cap := newCap t.cap, slots := s }
  else some t

/-- The line that defines a constant. -/
def definitionLine (name rhs : Text) : Text :=
  ((name ++ " = linkonce_odr unnamed_addr constant ".toList ++ rhs ++ ['\n'])).take (rhs.length + 127)

def internGlobal (t : Interned) (kind rhs : Text) : Option (Text × Interned) := do
  let name := globalName kind rhs
  let t ← grow t
  match ← probe t.cap t.slots name t.cap (bucket t.cap name) with
  | (_, some r) => pure (name, if r ≠ rhs then { t with hadError := true } else t)
  | (j, none) =>
    pure (name,
      { t with
        count := t.count + 1
        slots := Function.update t.slots j (some (name, rhs))
        globals := t.globals ++ definitionLine name rhs })

/-- The constants of a module, by kind and text, and the names they are given. -/
def internAll (t : Interned) (constants : List (Text × Text)) : Option (List Text × Interned) :=
  constants.foldlM (fun s c => (internGlobal s.2 c.1 c.2).map fun r => (s.1 ++ [r.1], r.2)) ([], t)

/-- A new context. -/
def Interned.create : Interned := ⟨0, 0, fun _ => none, [], false⟩

/-! ## The table and the list -/

/-- The entries of a table are those of the list, and there is a line for each. -/
structure Refines (t : Interned) (g : Globals) : Prop where
  table : Table t.cap fnvCstr t.slots g.interned
  count : t.count = g.interned.length
  room : t.count * 10 < t.cap * 7 + 10
  cap : t.cap = 0 ∨ ∃ k, t.cap = 2 ^ (k + 6)
  globals : t.globals = g.interned.flatMap fun e =>
    e.1 ++ " = linkonce_odr unnamed_addr constant ".toList ++ e.2 ++ ['\n']
  hadError : t.hadError = g.hadError

theorem Refines.create : Refines .create ⟨[], false⟩ :=
  ⟨Table.empty 0 fnvCstr, rfl, by decide, .inl rfl, rfl, rfl⟩

variable {t : Interned} {g : Globals}

theorem bucket_eq (k : Nat) (s : Text) : bucket (2 ^ k) s = fnvCstr s % 2 ^ k :=
  Nat.and_two_pow_sub_one_eq_mod _ _

theorem Refines.cap_le (h : Refines t g) (hcap : t.cap ≠ 0) : 64 ≤ t.cap := by
  obtain ⟨k, hk⟩ := h.cap.resolve_left hcap
  rw [hk, Nat.pow_add]
  exact Nat.le_mul_of_pos_left 64 (Nat.two_pow_pos k)

/-- After `grow` there is a slot that is free. -/
theorem Refines.grow (h : Refines t g) : ∃ t', grow t = some t' ∧ Refines t' g ∧
    t'.count * 10 < t'.cap * 7 ∧ ∃ k, t'.cap = 2 ^ k := by
  unfold InternTable.grow
  split
  next hfull =>
    have hcap : ∃ k, newCap t.cap = 2 ^ (k + 6) := by
      unfold newCap
      split
      next => exact ⟨0, rfl⟩
      next hne =>
        obtain ⟨k, hk⟩ := h.cap.resolve_left hne
        exact ⟨k + 1, by rw [hk, ← Nat.pow_succ]⟩
    have hroom : t.count * 10 < newCap t.cap * 7 := by
      have hold := h.room
      unfold newCap
      split
      next hzero => omega
      next hne =>
        have := h.cap_le hne
        omega
    obtain ⟨s, hs, htable⟩ := h.table.rehash (n := newCap t.cap) (by rw [← h.count]; omega)
    refine ⟨{ t with cap := newCap t.cap, slots := s }, by rw [hs]; rfl,
      ⟨htable, h.count, Nat.lt_add_right 10 hroom, .inr hcap, h.globals, h.hadError⟩, hroom, ?_⟩
    obtain ⟨k, hk⟩ := hcap
    exact ⟨k + 6, hk⟩
  next hfull =>
    refine ⟨t, rfl, h, Nat.lt_of_not_le hfull, ?_⟩
    rcases h.cap with hzero | ⟨k, hk⟩
    · rw [hzero] at hfull
      exact absurd (Nat.zero_mul 7 ▸ Nat.zero_le _) hfull
    · exact ⟨k + 6, hk⟩

theorem length_globalName (kind rhs : Text) : (globalName kind rhs).length ≤ 63 := by
  rw [globalName, fit, List.length_take]
  exact Nat.min_le_left _ _

/-- The buffer for the line has room for it. -/
theorem definitionLine_eq (kind rhs : Text) : definitionLine (globalName kind rhs) rhs =
    globalName kind rhs ++ " = linkonce_odr unnamed_addr constant ".toList ++ rhs ++ ['\n'] := by
  refine List.take_of_length_le ?_
  have hname := length_globalName kind rhs
  simp only [List.length_append, String.length_toList, List.length_singleton]
  change (globalName kind rhs).length + 38 + rhs.length + 1 ≤ rhs.length + 127
  omega

/-- A call of `intern_global` does what it does on the list. -/
theorem Refines.internGlobal (h : Refines t g) (kind rhs : Text) :
    ∃ t', internGlobal t kind rhs = some (globalName kind rhs, t') ∧
      Refines t' (StringGlobals.internGlobal g kind rhs).2 := by
  obtain ⟨t₁, hgrow, h₁, hroom, k, hcap⟩ := h.grow
  have hlt : g.interned.length < t₁.cap := by
    rw [← h₁.count]
    omega
  have hbucket : bucket t₁.cap (globalName kind rhs) = fnvCstr (globalName kind rhs) % t₁.cap := by
    rw [hcap]
    exact bucket_eq k _
  unfold InternTable.internGlobal StringGlobals.internGlobal
  simp only [hgrow, hbucket, Option.bind_eq_bind, Option.bind_some]
  cases hdef : g.definition (globalName kind rhs) with
  | some r =>
    have hlookup : g.interned.lookup (globalName kind rhs) = some r := hdef
    obtain ⟨j, hprobe⟩ := h₁.table.probe_found hlookup
    refine ⟨_, by rw [hprobe]; rfl, ?_⟩
    change Refines _ (if r ≠ rhs then { g with hadError := true } else g)
    split
    next => exact { h₁ with hadError := rfl }
    next => exact h₁
  | none =>
    obtain ⟨d, hd, hprobe, hnone, hbefore⟩ := h₁.table.probe_free hlt hdef
    refine ⟨_, by rw [hprobe]; rfl, ?_⟩
    refine ⟨h₁.table.insert hdef hd hnone hbefore, ?_, ?_, h₁.cap, ?_, h₁.hadError⟩
    · rw [List.length_append, ← h₁.count]
      rfl
    · change (t₁.count + 1) * 10 < t₁.cap * 7 + 10
      omega
    · rw [List.flatMap_append, ← h₁.globals, definitionLine_eq]
      rw [List.flatMap_singleton]

theorem Refines.internAll (h : Refines t g) (constants : List (Text × Text)) (names : List Text) :
    ∃ t', constants.foldlM
        (fun s c => (InternTable.internGlobal s.2 c.1 c.2).map fun r => (s.1 ++ [r.1], r.2))
        (names, t) = some (names ++ constants.map fun c => globalName c.1 c.2, t') ∧
      Refines t' (StringGlobals.internAll g constants) := by
  induction constants generalizing t g names with
  | nil => exact ⟨t, by rw [List.map_nil, List.append_nil]; rfl, h⟩
  | cons c cs ih =>
    obtain ⟨t₁, hstep, h₁⟩ := h.internGlobal c.1 c.2
    obtain ⟨t₂, hrun, h₂⟩ := ih h₁ (names ++ [globalName c.1 c.2])
    refine ⟨t₂, ?_, h₂⟩
    rw [List.foldlM_cons, hstep, List.map_cons, List.append_cons]
    exact hrun

/-- Interning any constants ends, names each by its text, finds the collisions that the list finds,
and leaves the module with one definition for each name, in the order in which they came up. -/
theorem internAll_refines (constants : List (Text × Text)) :
    ∃ t, internAll .create constants = some (constants.map fun c => globalName c.1 c.2, t) ∧
      t.hadError = (StringGlobals.internAll ⟨[], false⟩ constants).hadError ∧
      ((StringGlobals.internAll ⟨[], false⟩ constants).interned.map Prod.fst).Nodup ∧
      t.globals = (StringGlobals.internAll ⟨[], false⟩ constants).interned.flatMap fun e =>
        e.1 ++ " = linkonce_odr unnamed_addr constant ".toList ++ e.2 ++ ['\n'] := by
  obtain ⟨t, hrun, h⟩ := Refines.create.internAll constants []
  exact ⟨t, hrun, h.hadError, h.table.keys, h.globals⟩

end Arche.Codegen.InternTable
