import Mathlib.Data.List.Nodup
import Mathlib.Tactic.Common

/-!
# Lowering of `match`

`match` becomes a temporary for the scrutinee and a chain of ifs built from the
last arm to the first, whose innermost else is the body of the `_` arm
(lower.c). A pattern `Enum.case` is read by its last identifier: the case is looked
up in all enums, in the order they were registered. The exhaustiveness check of
semantic.c does the same. A match with a string pattern has no temporary: every
test of a string evaluates the scrutinee.

* A run of the lowered block is the list of what it does: evaluations of the
  scrutinee and statements of the arms, each with the number of its arm. There is no
  run where a test reads a temporary that is not there, or compares a string with
  an integer.
* Values of an enum and characters are integers, as in the generated code.

1. `runsRightArm_iff`: when a match runs the statements of the arm that denotes the
   value, with one evaluation of the scrutinee, and its exhaustiveness check looks
   at the enum of the scrutinee.
2. `not_runsRightArm`: two enums that share their case names are mixed up.
-/

namespace Arche.Lower.MatchArms

/-! ## The tree -/

/-- An entry of the variant table: `enum_var_enum`, `enum_var_name`, `enum_var_value`. -/
structure Variant where
  enum : String
  name : String
  value : Int
deriving DecidableEq, Repr

/-- `enum_variant_lookup`; without an enum it is the lookup of a bare name. -/
def variantLookup (T : List Variant) (enum : Option String) (name : String) : Option Int :=
  (T.find? fun v => (enum = none ∨ enum = some v.enum) ∧ v.name = name).map Variant.value

/-- A pattern by its value token: a number or character literal with its value, a string, or the last
identifier before the colon with what it is qualified by. -/
inductive Pattern
  | lit (value : Int)
  | str (text : String)
  | ident (enum : Option String) (name : String)
deriving DecidableEq, Repr

/-- An arm with its number in the match. -/
structure Arm (α : Type) where
  index : Nat
  pattern : Pattern
  body : List α

/-- A match statement. -/
structure Match (α : Type) where
  arms : List (Arm α)
  numbered : arms.map Arm.index = List.range arms.length

/-- What lowering and the check take for the wildcard: any pattern whose last identifier is `_`. -/
def Pattern.isUnderscore : Pattern → Bool
  | ident _ name => name == "_"
  | _ => false

def Pattern.isString : Pattern → Bool
  | str _ => true
  | _ => false

/-! ## The lowered block -/

/-- The tests of the chain: `tmp == lit` and `streq(scrut, lit) != 0`. -/
inductive Test
  | eq (value : Int)
  | streq (text : String)
deriving DecidableEq, Repr

/-- Statements of the lowered block. `stmt i s` is the statement `s` of arm `i`. -/
inductive HirStmt (α : Type)
  | bind
  | stmt (arm : Nat) (s : α)
  | ite (cond : Test) (thn els : List (HirStmt α))

variable {α : Type}

/-- `syntax_lower_body` of an arm. -/
def Arm.lowered (a : Arm α) : List (HirStmt α) := a.body.map (.stmt a.index)

/-- The test for a pattern. An arm whose case is found in no enum has none. -/
def Pattern.test (T : List Variant) (p : Pattern) : Option Test :=
  if p.isUnderscore then none
  else match p with
    | lit value => some (.eq value)
    | str text => some (.streq text)
    | ident _ name => (variantLookup T none name).map .eq

/-- The arms from the last to the first, around the body of the default. -/
def chain (T : List Variant) (arms : List (Arm α)) (default : List (HirStmt α)) : List (HirStmt α) :=
  match arms with
  | [] => default
  | a :: arms =>
    match a.pattern.test T with
    | none => chain T arms default
    | some cond => [.ite cond a.lowered (chain T arms default)]

/-- The first arm that is taken for the wildcard. -/
def wildcardArm (arms : List (Arm α)) : Option (Arm α) :=
  arms.find? (·.pattern.isUnderscore)

/-- The innermost else. -/
def defaultBody : Option (Arm α) → List (HirStmt α)
  | none => []
  | some a => a.lowered

/-- The lowered `SN_MATCH_STMT`. -/
def lowerMatch (T : List Variant) (arms : List (Arm α)) : List (HirStmt α) :=
  let bind := if arms.any (·.pattern.isString) then [] else [HirStmt.bind]
  -- of the chain its first statement
  bind ++ (chain T arms (defaultBody (wildcardArm arms))).take 1

/-! ## Runs of the block -/

inductive Value
  | int (n : Int)
  | str (text : String)
deriving DecidableEq, Repr

inductive Event (α : Type)
  | eval
  | stmt (arm : Nat) (s : α)

/-- Whether the temporary is bound, and what has been done so far. -/
structure State (α : Type) where
  bound : Bool
  done : List (Event α)

def State.push (s : State α) (e : Event α) : State α := { s with done := s.done ++ [e] }

/-- A test with the scrutinee's value. -/
def Test.run (v : Value) (s : State α) : Test → Option (Bool × State α)
  | eq n =>
    match v with
    | .int m => if s.bound then some (m = n, s) else none
    | .str _ => none
  | streq text =>
    match v with
    | .int _ => none
    | .str t => some (t = text, s.push .eval)

mutual

def HirStmt.run (v : Value) : HirStmt α → State α → Option (State α)
  | .bind, s => some { s.push .eval with bound := true }
  | .stmt i st, s => some (s.push (.stmt i st))
  | .ite cond thn els, s =>
    match cond.run v s with
    | none => none
    | some (true, s) => runAll v thn s
    | some (false, s) => runAll v els s

def runAll (v : Value) : List (HirStmt α) → State α → Option (State α)
  | [], s => some s
  | st :: rest, s =>
    match st.run v s with
    | none => none
    | some s => runAll v rest s

end

/-- What the lowered match does for a scrutinee of value `v`. -/
def runMatch (T : List Variant) (arms : List (Arm α)) (v : Value) : Option (List (Event α)) :=
  (runAll v (lowerMatch T arms) ⟨false, []⟩).map State.done

/-! ## What a match means -/

/-- A pattern denotes a value. A case is a case of the enum it is qualified by. -/
def Pattern.denotes (T : List Variant) (v : Value) : Pattern → Bool
  | lit value => decide (v = .int value)
  | str text => decide (v = .str text)
  | ident none _ => false
  | ident (some enum) name => decide ((variantLookup T (some enum) name).map .int = some v)

/-- The first arm whose pattern denotes the value, or the `_` arm. -/
def rightArm (T : List Variant) (arms : List (Arm α)) (v : Value) : Option (Arm α) :=
  (arms.find? (·.pattern.denotes T v)).or (arms.find? (·.pattern = .ident none "_"))

/-- The statements of an arm, if there is one. -/
def eventsOf : Option (Arm α) → List (Event α)
  | none => []
  | some a => a.body.map (.stmt a.index)

/-! ## The exhaustiveness check -/

/-- The enum a match is taken to be over: that of the first case found in any enum. -/
def matchedEnum (T : List Variant) (arms : List (Arm α)) : Option String :=
  arms.findSome? fun a =>
    match a.pattern with
    | .ident _ name =>
      if name = "_" then none else (T.find? (·.name = name)).map Variant.enum
    | _ => none

/-- The last identifier of the arm is the name of the variant. -/
def Arm.covers (a : Arm α) (v : Variant) : Bool :=
  match a.pattern with
  | .ident _ name => name == v.name
  | _ => false

/-- `check_one_match`, by the number of its diagnostics. -/
def checkOneMatch (T : List Variant) (arms : List (Arm α)) : Nat :=
  let hasWild := arms.any (·.pattern.isUnderscore)
  match matchedEnum T arms with
  | some en =>
    hasWild.toNat + (T.filter fun v => v.enum = en ∧ ¬ arms.any (·.covers v)).length
  | none => (!hasWild).toNat

def Accepted (T : List Variant) (arms : List (Arm α)) : Prop := checkOneMatch T arms = 0

/-- Every variant the check counts as covered is the one the arm names, of the scrutinee's enum. -/
def CoversOwn (T : List Variant) (arms : List (Arm α)) (enum : String) : Prop :=
  ∀ v ∈ T, matchedEnum T arms = some v.enum → ∀ a ∈ arms, a.covers v = true →
    a.pattern = .ident (some enum) v.name ∧ v.enum = enum

/-- A match over a scrutinee, of the given enum if it is an enum's, does what it means at `v`. -/
def RunsRightArm (T : List Variant) (m : Match α) (enum : Option String) (v : Value) : Prop :=
  runMatch T m.arms v = some (.eval :: eventsOf (rightArm T m.arms v)) ∧
  ∀ e, enum = some e → CoversOwn T m.arms e

/-! ## When a match is right -/

/-- The tests of the chain, in order. -/
def tests (T : List Variant) (arms : List (Arm α)) : List Test :=
  arms.filterMap (·.pattern.test T)

/-- The value passes the test. -/
def Test.passes (v : Value) : Test → Bool
  | eq n => decide (v = .int n)
  | streq text => decide (v = .str text)

def Arm.hit (T : List Variant) (v : Value) (a : Arm α) : Bool :=
  (a.pattern.test T).any (·.passes v)

/-- The first arm whose case, looked up by its bare name, is the value, or the first arm taken for
the wildcard. -/
def foundArm (T : List Variant) (arms : List (Arm α)) (v : Value) : Option (Arm α) :=
  (arms.find? (·.hit T v)).or (wildcardArm arms)

/-- The tests are of the value's sort and evaluate the scrutinee once. -/
def TestedOnce (T : List Variant) (arms : List (Arm α)) : Value → Prop
  | .int _ => ∀ a ∈ arms, a.pattern.isString = false
  | .str text => tests T arms = [] ∨
      ∃ first rest, tests T arms = .streq first :: rest ∧ (first = text ∨ rest = [])

/-- The cases of the match are those of the scrutinee's enum. -/
def OwnCases (T : List Variant) (arms : List (Arm α)) (enum : String) : Prop :=
  matchedEnum T arms = none ∨ matchedEnum T arms = some enum ∧
    ∀ a ∈ arms, ∀ q name, a.pattern = .ident q name → (∃ v ∈ T, v.enum = enum ∧ v.name = name) →
      q = some enum

/-- The lowering of a match is right at `v`. -/
structure RightAt (T : List Variant) (m : Match α) (enum : Option String) (v : Value) : Prop where
  once : TestedOnce T m.arms v
  whole : tests T m.arms = [] → ∀ a, wildcardArm m.arms = some a → a.body.length ≤ 1
  arm : foundArm T m.arms v = rightArm T m.arms v ∨
    eventsOf (foundArm T m.arms v) = [] ∧ eventsOf (rightArm T m.arms v) = []
  own : ∀ e, enum = some e → OwnCases T m.arms e

/-! ## Runs of the chain -/

theorem Pattern.test_eq_streq {T : List Variant} {p : Pattern} {text : String} :
    p.test T = some (.streq text) ↔ p = .str text := by
  cases p with
  | lit value => simp [test, isUnderscore]
  | str t => simp [test, isUnderscore]
  | ident q name =>
    by_cases hname : name = "_"
    · simp [test, isUnderscore, hname]
    · simp [test, isUnderscore, hname, Option.map_eq_some_iff]

theorem runAll_lowered (v : Value) (a : Arm α) (s : State α) :
    runAll v a.lowered s = some { s with done := s.done ++ eventsOf (some a) } := by
  obtain ⟨index, pattern, body⟩ := a
  simp only [Arm.lowered, eventsOf]
  induction body generalizing s with
  | nil => simp [runAll]
  | cons st body ih =>
    simp only [List.map_cons, runAll, HirStmt.run, ih]
    simp [State.push]

theorem runAll_defaultBody (v : Value) (a : Option (Arm α)) (s : State α) :
    runAll v (defaultBody a) s = some { s with done := s.done ++ eventsOf a } := by
  cases a with
  | none => simp [defaultBody, runAll, eventsOf]
  | some a => exact runAll_lowered v a s

section Chain

variable {T : List Variant} {arms : List (Arm α)} {default : List (HirStmt α)} {v : Value}

theorem chain_of_tests_nil (h : tests T arms = []) : chain T arms default = default := by
  induction arms with
  | nil => rfl
  | cons a arms ih =>
    cases ht : a.pattern.test T with
    | none =>
      simp only [tests, List.filterMap_cons, ht] at h
      simp only [chain, ht]
      exact ih h
    | some c => simp [tests, ht] at h

theorem find_hit_of_tests_nil (h : tests T arms = []) : arms.find? (·.hit T v) = none := by
  rw [List.find?_eq_none]
  intro a ha
  have ht : a.pattern.test T = none := List.filterMap_eq_nil_iff.mp h a ha
  simp [Arm.hit, ht]

/-- The first test of the chain, with the arm it is for. -/
theorem chain_of_tests_cons (v : Value) (default : List (HirStmt α)) {c : Test} {rest : List Test}
    (h : tests T arms = c :: rest) :
    ∃ a arms', a.pattern.test T = some c ∧ tests T arms' = rest ∧
      chain T arms default = [.ite c a.lowered (chain T arms' default)] ∧
      arms.find? (·.hit T v) = if c.passes v then some a else arms'.find? (·.hit T v) := by
  induction arms with
  | nil => simp [tests] at h
  | cons a arms ih =>
    cases ht : a.pattern.test T with
    | none =>
      simp only [tests, List.filterMap_cons, ht] at h
      obtain ⟨b, arms', hb, hrest, hchain, hfind⟩ := ih h
      refine ⟨b, arms', hb, hrest, ?_, ?_⟩
      · simp only [chain, ht, hchain]
      · have hno : a.hit T v = false := by simp [Arm.hit, ht]
        rw [List.find?_cons, hno, hfind]
    | some c' =>
      simp only [tests, List.filterMap_cons, ht, List.cons.injEq] at h
      obtain ⟨rfl, hrest⟩ := h
      refine ⟨a, arms, ht, hrest, by simp only [chain, ht], ?_⟩
      have hhit : a.hit T v = c'.passes v := by simp [Arm.hit, ht]
      rw [List.find?_cons, hhit]
      cases c'.passes v <;> rfl

theorem chain_take_one {c : Test} {rest : List Test} (h : tests T arms = c :: rest) :
    (chain T arms default).take 1 = chain T arms default := by
  obtain ⟨a, arms', -, -, hchain, -⟩ := chain_of_tests_cons (.int 0) default h
  rw [hchain]
  rfl

theorem runAll_singleton (v : Value) (st : HirStmt α) (s : State α) : runAll v [st] s = st.run v s := by
  simp only [runAll]
  cases st.run v s <;> rfl

/-- A test of the temporary with an integer. -/
theorem runAll_chain_int {n : Int} {s : State α} (hs : s.bound = true)
    (hstr : ∀ a ∈ arms, a.pattern.isString = false) (w : Option (Arm α)) :
    runAll (.int n) (chain T arms (defaultBody w)) s =
      some { s with done := s.done ++ eventsOf ((arms.find? (·.hit T (.int n))).or w) } := by
  induction arms with
  | nil => exact runAll_defaultBody (.int n) w s
  | cons a arms ih =>
    have ih := ih fun b hb => hstr b (List.mem_cons_of_mem a hb)
    rw [List.find?_cons]
    cases ht : a.pattern.test T with
    | none =>
      have hno : a.hit T (.int n) = false := by simp [Arm.hit, ht]
      simp only [chain, ht, hno]
      exact ih
    | some c =>
      have hhit : a.hit T (.int n) = c.passes (.int n) := by simp [Arm.hit, ht]
      rw [hhit]
      simp only [chain, ht]
      rw [runAll_singleton]
      cases c with
      | streq text =>
        rw [Pattern.test_eq_streq] at ht
        have hno := hstr a List.mem_cons_self
        simp [ht, Pattern.isString] at hno
      | eq m =>
        by_cases hnm : n = m
        · simp [HirStmt.run, Test.run, hs, hnm, Test.passes, runAll_lowered]
        · simpa [HirStmt.run, Test.run, hs, hnm, Test.passes] using ih

/-- Without the temporary, or with a string, no integer test runs. -/
theorem test_run_none {c : Test} {s : State α} (h : s.bound = false ∨ ∃ text, v = .str text)
    (hc : ∀ text, v = .str text → ∀ t, c ≠ .streq t) : c.run v s = none := by
  cases c with
  | eq n =>
    cases v with
    | int m =>
      rcases h with h | ⟨text, h⟩
      · simp [Test.run, h]
      · cases h
    | str text => rfl
  | streq t =>
    cases v with
    | int m => rfl
    | str text => exact absurd rfl (hc text rfl t)

theorem tests_ne_nil_of_isString (h : arms.any (·.pattern.isString) = true) : tests T arms ≠ [] := by
  obtain ⟨a, ha, hstr⟩ := List.any_eq_true.mp h
  obtain ⟨text, htext⟩ : ∃ text, a.pattern = .str text := by
    cases hp : a.pattern with
    | str text => exact ⟨text, rfl⟩
    | lit value => simp [hp, Pattern.isString] at hstr
    | ident q name => simp [hp, Pattern.isString] at hstr
  intro hnil
  have := List.filterMap_eq_nil_iff.mp hnil a ha
  rw [Pattern.test_eq_streq.mpr htext] at this
  cases this

theorem isString_of_tests_streq {text : String} {rest : List Test} (h : tests T arms = .streq text :: rest) :
    arms.any (·.pattern.isString) = true := by
  obtain ⟨a, ha, ht⟩ := List.mem_filterMap.mp (h ▸ List.mem_cons_self : Test.streq text ∈ tests T arms)
  refine List.any_eq_true.mpr ⟨a, ha, ?_⟩
  rw [Pattern.test_eq_streq.mp ht]
  rfl

/-! ### The runs of a match -/

/-- Of a match without tests only the first statement of the default is left. -/
theorem runMatch_of_tests_nil (h : tests T arms = []) :
    runMatch T arms v = some (.eval :: (eventsOf (wildcardArm arms)).take 1) := by
  have hstr : arms.any (·.pattern.isString) = false := by
    by_contra hc
    exact tests_ne_nil_of_isString (Bool.not_eq_false _ ▸ hc) h
  simp only [runMatch, lowerMatch, hstr, chain_of_tests_nil h]
  cases wildcardArm arms with
  | none => rfl
  | some a =>
    obtain ⟨index, pattern, body⟩ := a
    cases body with
    | nil => rfl
    | cons st body => rfl

theorem runMatch_int {n : Int} (hstr : ∀ a ∈ arms, a.pattern.isString = false) (h : tests T arms ≠ []) :
    runMatch T arms (.int n) = some (.eval :: eventsOf (foundArm T arms (.int n))) := by
  obtain ⟨c, rest, hc⟩ := List.exists_cons_of_ne_nil h
  have hany : arms.any (·.pattern.isString) = false := by
    rw [List.any_eq_false]
    intro a ha
    simp [hstr a ha]
  have hrun := runAll_chain_int (T := T) (n := n) (s := ⟨true, [.eval]⟩) rfl hstr (wildcardArm arms)
  simp only [runMatch, lowerMatch, hany, chain_take_one hc]
  simp only [Bool.false_eq_true, if_false, List.singleton_append, runAll, HirStmt.run, State.push]
  simp only [List.nil_append, hrun]
  rfl

theorem runMatch_int_string {n : Int} (hany : arms.any (·.pattern.isString) = true) :
    runMatch T arms (.int n) = none := by
  obtain ⟨c, rest, hc⟩ := List.exists_cons_of_ne_nil (tests_ne_nil_of_isString (T := T) hany)
  obtain ⟨a, arms', -, -, hchain, -⟩ := chain_of_tests_cons (.int n) (defaultBody (wildcardArm arms)) hc
  have hnone := test_run_none (v := .int n) (c := c) (s := (⟨false, []⟩ : State α)) (.inl rfl)
    (fun _ h => by cases h)
  simp only [runMatch, lowerMatch, hany, hchain]
  simp [runAll_singleton, HirStmt.run, hnone]

/-- A run of the chain only adds to what has been done. -/
theorem runAll_chain_str {text : String} (w : Option (Arm α)) {s s' : State α}
    (h : runAll (.str text) (chain T arms (defaultBody w)) s = some s') :
    ∃ ext, s'.done = s.done ++ ext := by
  induction arms generalizing s with
  | nil =>
    rw [chain, runAll_defaultBody] at h
    cases h
    exact ⟨_, rfl⟩
  | cons a arms ih =>
    cases ht : a.pattern.test T with
    | none =>
      simp only [chain, ht] at h
      exact ih h
    | some c =>
      simp only [chain, ht] at h
      rw [runAll_singleton] at h
      cases c with
      | eq n => cases h
      | streq t =>
        by_cases htext : text = t
        · simp only [HirStmt.run, Test.run, htext, decide_true, runAll_lowered] at h
          cases h
          exact ⟨.eval :: eventsOf (some a), by simp [State.push]⟩
        · simp only [HirStmt.run, Test.run, htext, decide_false] at h
          obtain ⟨ext, hext⟩ := ih h
          exact ⟨.eval :: ext, by simp [hext, State.push]⟩

theorem runMatch_str_eq {text : String} {n : Int} {rest : List Test}
    (h : tests T arms = .eq n :: rest) : runMatch T arms (.str text) = none := by
  obtain ⟨a, arms', -, -, hchain, -⟩ :=
    chain_of_tests_cons (.str text) (defaultBody (wildcardArm arms)) h
  simp only [runMatch, lowerMatch, hchain]
  split <;> simp [runAll, HirStmt.run, Test.run]

/-- The first string test evaluates the scrutinee, and a second one evaluates it again. -/
theorem runMatch_str (text : String) {first : String} {rest : List Test} (h : tests T arms = .streq first :: rest) :
    runMatch T arms (.str text) = some (.eval :: eventsOf (foundArm T arms (.str text))) ∧
      (first = text ∨ rest = []) ∨
    (first ≠ text ∧ rest ≠ []) ∧
      ∀ es, runMatch T arms (.str text) = some es → ∃ ext, es = .eval :: .eval :: ext := by
  obtain ⟨a, arms', -, hrest, hchain, hfind⟩ :=
    chain_of_tests_cons (.str text) (defaultBody (wildcardArm arms)) h
  have hrun : runMatch T arms (.str text) =
      (if text = first then runAll (.str text) a.lowered ⟨false, [.eval]⟩
        else runAll (.str text) (chain T arms' (defaultBody (wildcardArm arms))) ⟨false, [.eval]⟩).map
        State.done := by
    simp only [runMatch, lowerMatch, isString_of_tests_streq h, hchain]
    by_cases htext : text = first <;>
      simp [runAll_singleton, HirStmt.run, Test.run, htext, State.push]
  by_cases htext : text = first
  · refine .inl ⟨?_, .inl htext.symm⟩
    rw [if_pos htext, runAll_lowered] at hrun
    rw [hrun, foundArm, hfind]
    simp [Test.passes, htext]
  · rw [if_neg htext] at hrun
    cases rest with
    | nil =>
      refine .inl ⟨?_, .inr rfl⟩
      rw [chain_of_tests_nil hrest, runAll_defaultBody] at hrun
      rw [hrun, foundArm, hfind, find_hit_of_tests_nil hrest]
      simp [Test.passes, htext]
    | cons c rest =>
      refine .inr ⟨⟨fun h => htext h.symm, by simp⟩, fun es hes => ?_⟩
      obtain ⟨b, arms'', hb, hrest', hchain', -⟩ :=
        chain_of_tests_cons (.str text) (defaultBody (wildcardArm arms)) hrest
      rw [hrun, hchain', runAll_singleton] at hes
      obtain ⟨s', hs', rfl⟩ := Option.map_eq_some_iff.mp hes
      cases c with
      | eq n => cases hs'
      | streq t =>
        by_cases ht : text = t
        · simp only [HirStmt.run, Test.run, ht, decide_true, runAll_lowered] at hs'
          cases hs'
          exact ⟨_, rfl⟩
        · simp only [HirStmt.run, Test.run, ht, decide_false] at hs'
          obtain ⟨ext, hext⟩ := runAll_chain_str _ hs'
          exact ⟨ext, hext⟩

end Chain

/-! ## The right arm -/

section Right

variable {T : List Variant} {m : Match α} {v : Value}

theorem Match.eq_of_index (m : Match α) {a b : Arm α} (ha : a ∈ m.arms) (hb : b ∈ m.arms)
    (h : a.index = b.index) : a = b := by
  have hnodup : (m.arms.map Arm.index).Nodup := m.numbered ▸ List.nodup_range
  exact List.inj_on_of_nodup_map hnodup ha hb h

theorem wildcardArm_mem {arms : List (Arm α)} {a : Arm α} (h : wildcardArm arms = some a) : a ∈ arms :=
  List.mem_of_find?_eq_some h

theorem foundArm_mem {arms : List (Arm α)} {a : Arm α} (h : foundArm T arms v = some a) : a ∈ arms := by
  rcases Option.or_eq_some_iff.mp h with h | ⟨-, h⟩
  · exact List.mem_of_find?_eq_some h
  · exact List.mem_of_find?_eq_some h

theorem rightArm_mem {arms : List (Arm α)} {a : Arm α} (h : rightArm T arms v = some a) : a ∈ arms := by
  rcases Option.or_eq_some_iff.mp h with h | ⟨-, h⟩
  · exact List.mem_of_find?_eq_some h
  · exact List.mem_of_find?_eq_some h

/-- Statements carry the number of their arm, so two arms that do the same are one or do nothing. -/
theorem Match.take_eventsOf_eq (m : Match α) {a b : Option (Arm α)} (ha : ∀ x, a = some x → x ∈ m.arms)
    (hb : ∀ x, b = some x → x ∈ m.arms) {k : Nat} (hk : 1 ≤ k)
    (h : (eventsOf a).take k = eventsOf b) : a = b ∨ eventsOf a = [] ∧ eventsOf b = [] := by
  cases ha' : eventsOf a with
  | nil =>
    rw [ha', List.take_nil] at h
    exact .inr ⟨rfl, h.symm⟩
  | cons e es =>
    obtain ⟨k, rfl⟩ : ∃ j, k = j + 1 := ⟨k - 1, by omega⟩
    rw [ha', List.take_succ_cons] at h
    refine .inl ?_
    cases a with
    | none => cases ha'
    | some x =>
      cases b with
      | none => cases h
      | some y =>
        have hindex : x.index = y.index := by
          obtain ⟨i, p, _ | ⟨st, body⟩⟩ := x
          · cases ha'
          obtain ⟨j, q, _ | ⟨st', body'⟩⟩ := y
          · cases h
          simp only [eventsOf, List.map_cons, List.cons.injEq] at ha' h
          rw [← ha'.1] at h
          exact (Event.stmt.inj h.1).1
        rw [m.eq_of_index (ha x rfl) (hb y rfl) hindex]

theorem eventsOf_eq_iff : eventsOf (foundArm T m.arms v) = eventsOf (rightArm T m.arms v) ↔
    foundArm T m.arms v = rightArm T m.arms v ∨
      eventsOf (foundArm T m.arms v) = [] ∧ eventsOf (rightArm T m.arms v) = [] := by
  constructor
  · intro h
    refine m.take_eventsOf_eq (k := (eventsOf (foundArm T m.arms v)).length + 1) (fun x => foundArm_mem)
      (fun x => rightArm_mem) (by omega) ?_
    rw [List.take_of_length_le (by omega), h]
  · rintro (h | ⟨hf, hr⟩)
    · rw [h]
    · rw [hf, hr]

/-- Of a match without tests one statement is run. -/
theorem take_eventsOf_eq_iff (hnil : tests T m.arms = []) :
    (eventsOf (wildcardArm m.arms)).take 1 = eventsOf (rightArm T m.arms v) ↔
    (∀ a, wildcardArm m.arms = some a → a.body.length ≤ 1) ∧
      (foundArm T m.arms v = rightArm T m.arms v ∨
        eventsOf (foundArm T m.arms v) = [] ∧ eventsOf (rightArm T m.arms v) = []) := by
  have hfound : foundArm T m.arms v = wildcardArm m.arms := by
    rw [foundArm, find_hit_of_tests_nil hnil, Option.none_or]
  rw [hfound]
  constructor
  · intro h
    have hsame := m.take_eventsOf_eq (fun x => wildcardArm_mem) (fun x => rightArm_mem) (by omega) h
    refine ⟨fun a ha => ?_, hsame⟩
    rcases hsame with hsame | ⟨hempty, -⟩
    · rw [← hsame, ha] at h
      have hlen := congrArg List.length h
      simp only [eventsOf, List.length_take, List.length_map] at hlen
      omega
    · rw [ha] at hempty
      simp only [eventsOf, List.map_eq_nil_iff] at hempty
      simp [hempty]
  · rintro ⟨hlen, h | ⟨hf, hr⟩⟩
    · rw [← h]
      cases ha : wildcardArm m.arms with
      | none => rfl
      | some a =>
        refine List.take_of_length_le ?_
        simpa [eventsOf] using hlen a ha
    · rw [hf, hr]
      rfl

theorem runMatch_iff : runMatch T m.arms v = some (.eval :: eventsOf (rightArm T m.arms v)) ↔
    TestedOnce T m.arms v ∧
    (tests T m.arms = [] → ∀ a, wildcardArm m.arms = some a → a.body.length ≤ 1) ∧
    (foundArm T m.arms v = rightArm T m.arms v ∨
      eventsOf (foundArm T m.arms v) = [] ∧ eventsOf (rightArm T m.arms v) = []) := by
  cases htests : tests T m.arms with
  | nil =>
    have honce : TestedOnce T m.arms v := by
      cases v with
      | str text => exact .inl htests
      | int n =>
        intro a ha
        by_contra hstr
        exact tests_ne_nil_of_isString (List.any_eq_true.mpr ⟨a, ha, by simpa using hstr⟩) htests
    rw [runMatch_of_tests_nil htests, Option.some.injEq, List.cons.injEq, take_eventsOf_eq_iff htests]
    simp [honce]
  | cons c rest =>
    have hne : tests T m.arms ≠ [] := by simp [htests]
    cases v with
    | int n =>
      cases hany : m.arms.any (·.pattern.isString) with
      | false =>
        have hstr : ∀ a ∈ m.arms, a.pattern.isString = false := by
          intro a ha
          simpa using List.any_eq_false.mp hany a ha
        have honce : TestedOnce T m.arms (.int n) := hstr
        rw [runMatch_int hstr hne, Option.some.injEq, List.cons.injEq, eventsOf_eq_iff]
        simp [honce]
      | true =>
        have hno : ¬ TestedOnce T m.arms (.int n) := by
          intro hstr
          obtain ⟨a, ha, hstring⟩ := List.any_eq_true.mp hany
          simp [hstr a ha] at hstring
        rw [runMatch_int_string hany]
        simp [hno]
    | str text =>
      cases c with
      | eq n =>
        have hno : ¬ TestedOnce T m.arms (.str text) := by
          simp [TestedOnce, htests]
        rw [runMatch_str_eq htests]
        simp [hno]
      | streq first =>
        rcases runMatch_str text htests with ⟨hrun, hfirst⟩ | ⟨⟨hfirst, hrest⟩, hrun⟩
        · have honce : TestedOnce T m.arms (.str text) := .inr ⟨first, rest, htests, hfirst⟩
          rw [hrun, Option.some.injEq, List.cons.injEq, eventsOf_eq_iff]
          simp [honce]
        · have hno : ¬ TestedOnce T m.arms (.str text) := by
            simp [TestedOnce, htests, hfirst, hrest]
          constructor
          · intro h
            obtain ⟨ext, hext⟩ := hrun _ h
            cases hright : rightArm T m.arms (.str text) with
            | none => simp [hright, eventsOf] at hext
            | some a =>
              obtain ⟨i, p, _ | ⟨st, body⟩⟩ := a
              · simp [hright, eventsOf] at hext
              · simp [hright, eventsOf] at hext
          · exact fun h => absurd h.1 hno

end Right

/-! ## The enum of the scrutinee -/

/-- The enum a match is taken to be over has a case that one of the arms names. -/
theorem matchedEnum_spec {T : List Variant} {arms : List (Arm α)} {en : String}
    (h : matchedEnum T arms = some en) : ∃ v ∈ T, v.enum = en ∧ ∃ a ∈ arms, a.covers v = true := by
  obtain ⟨a, ha, h⟩ := List.exists_of_findSome?_eq_some h
  cases hp : a.pattern with
  | lit value => simp [hp] at h
  | str text => simp [hp] at h
  | ident q name =>
    simp only [hp] at h
    split at h
    · cases h
    · obtain ⟨v, hv, rfl⟩ := Option.map_eq_some_iff.mp h
      have hname : v.name = name := by simpa using List.find?_some hv
      exact ⟨v, List.mem_of_find?_eq_some hv, rfl, a, ha, by simp [Arm.covers, hp, hname]⟩

theorem coversOwn_iff {T : List Variant} {arms : List (Arm α)} {enum : String} :
    CoversOwn T arms enum ↔ OwnCases T arms enum := by
  have hcovers (a : Arm α) (v : Variant) : a.covers v = true ↔ ∃ q, a.pattern = .ident q v.name := by
    cases hp : a.pattern <;> simp [Arm.covers, hp]
  constructor
  · intro h
    cases hen : matchedEnum T arms with
    | none => exact .inl hen
    | some en =>
      obtain ⟨v, hv, rfl, a, ha, hcov⟩ := matchedEnum_spec hen
      obtain ⟨-, rfl⟩ := h v hv hen a ha hcov
      refine .inr ⟨hen, fun b hb q name hpat ⟨w, hw, hwe, hwn⟩ => ?_⟩
      subst hwn
      obtain ⟨hq, -⟩ := h w hw (hwe ▸ hen) b hb ((hcovers b w).mpr ⟨q, hpat⟩)
      rw [hpat] at hq
      exact (Pattern.ident.inj hq).1
  · rintro (hen | ⟨hen, hcases⟩) v hv hve a ha hcov
    · rw [hen] at hve
      cases hve
    · obtain rfl : enum = v.enum := Option.some.inj (hen.symm.trans hve)
      obtain ⟨q, hpat⟩ := (hcovers a v).mp hcov
      have hq := hcases a ha q v.name hpat ⟨v, hv, rfl, rfl⟩
      exact ⟨hq ▸ hpat, rfl⟩

/-- A match runs the arm that denotes the value if and only if its tests are of the value's sort and
evaluate the scrutinee once, there is a test or the `_` arm is one statement, the arm found by bare
case names is the one denoted, and the cases are those of the scrutinee's enum. -/
theorem runsRightArm_iff (T : List Variant) (m : Match α) (enum : Option String) (v : Value) :
    RunsRightArm T m enum v ↔ RightAt T m enum v := by
  have hown : (∀ e, enum = some e → CoversOwn T m.arms e) ↔
      ∀ e, enum = some e → OwnCases T m.arms e := by
    constructor
    · exact fun h e he => coversOwn_iff.mp (h e he)
    · exact fun h e he => coversOwn_iff.mpr (h e he)
  rw [RunsRightArm, runMatch_iff, hown]
  constructor
  · rintro ⟨⟨honce, hwhole, harm⟩, hown⟩
    exact ⟨honce, hwhole, harm, hown⟩
  · rintro ⟨honce, hwhole, harm, hown⟩
    exact ⟨⟨honce, hwhole, harm⟩, hown⟩

/-- `A :: enum { x, y }` and then `B :: enum { y, x }`. -/
def swapped : List Variant := [⟨"A", "x", 0⟩, ⟨"A", "y", 1⟩, ⟨"B", "y", 0⟩, ⟨"B", "x", 1⟩]

/-- `match b { B.x : s; B.y : t; }`. -/
def swappedMatch : Match String where
  arms := [⟨0, .ident (some "B") "x", ["s"]⟩, ⟨1, .ident (some "B") "y", ["t"]⟩]
  numbered := rfl

/-- The match is accepted as one over `A`, and `B.x` runs the arm of `B.y`. -/
theorem not_runsRightArm : Accepted swapped swappedMatch.arms ∧
    ¬ RunsRightArm swapped swappedMatch (some "B") (.int 1) := by
  refine ⟨rfl, ?_⟩
  rintro ⟨hrun, -⟩
  have hcode : runMatch swapped swappedMatch.arms (.int 1) = some [.eval, .stmt 1 "t"] := rfl
  have hmeant : eventsOf (rightArm swapped swappedMatch.arms (.int 1)) = [.stmt 0 "s"] := rfl
  rw [hcode, hmeant] at hrun
  simp at hrun

/-- A match that has only the `_` arm loses all statements but the first. -/
example : runMatch [] [⟨0, .ident none "_", ["s", "t"]⟩] (.int 3) = some [.eval, .stmt 0 "s"] := rfl

end Arche.Lower.MatchArms
