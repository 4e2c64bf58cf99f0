import Arche.Codegen.WasmGen

/-!
# The schedule of the wasm backend

`wasmgen_generate` looks whether a program has a `#run`, not at its tree: `_start` has the
code of every system without parameters, once, in the order of the declarations.

`entry_follows`: that is what the schedule says exactly if, whatever its predicates
answer, it runs these systems once each in this order and ends. `ends_straight` reads off
such a schedule what it runs.
-/

namespace Arche.Codegen.WasmGen

open Arche.Lib.Machine EmitSched

/-- The entry runs the code of one system after the other. -/
def entryStep : List (String × Code) → Option (Option String × List (String × Code))
  | [] => none
  | (x, _) :: rest => some (some x, rest)

/-- The entry executes the systems the schedule does, and ends with it. -/
def Follows (p : Program) (t : ScheduleTree) : Prop :=
  ∀ (ω : Nat → Bool) (us : List String),
    (Shows entryStep (generate p).1 us ↔ Shows (readStep ω) ([t], 0) us) ∧
      (Ends entryStep (generate p).1 us ↔ Ends (readStep ω) ([t], 0) us)

theorem ends_entry (cs : List (String × Code)) : Ends entryStep cs (cs.map (·.1)) := by
  have hsteps : Steps entryStep cs.length cs (cs.map (·.1)) [] := by
    induction cs with
    | nil => exact .refl []
    | cons c cs ih => exact .cons (e := some c.1) rfl ih
  exact ⟨_, _, hsteps, rfl⟩

theorem emitSystems_names (consts : List (String × Expr)) (g : Wg)
    (systems : List (String × List Stmt)) :
    (emitSystems consts g systems).1.map (·.1) = systems.map (·.1) := by
  induction systems generalizing g with
  | nil => rfl
  | cons s rest ih => exact congrArg (s.1 :: ·) (ih _)

theorem hasRun_of_mem {p : Program} {t : ScheduleTree} (h : Decl.run t ∈ p) : hasRun p = true :=
  List.any_eq_true.mpr ⟨_, h, rfl⟩

/-- What the entry of a scheduled program executes. -/
theorem ends_generate {p : Program} {t : ScheduleTree} (h : Decl.run t ∈ p) :
    Ends entryStep (generate p).1 ((runOnceSystems p).map (·.1)) := by
  have hnames : (generate p).1.map (·.1) = (runOnceSystems p).map (·.1) := by
    rw [generate, emitSystems_names, entrySystems, hasRun_of_mem h, if_pos rfl]
  exact hnames ▸ ends_entry (generate p).1

mutual

/-- The systems a schedule without loops, tests and halts runs. -/
def straight : ScheduleTree → Option (List String)
  | .run x => some [x]
  | .seq ts | .par ts => straightAll ts
  | .gpuSync _ | .gpuUpload _ => some []
  | .halt | .loop _ | .whenT _ _ => none

def straightAll : List ScheduleTree → Option (List String)
  | [] => some []
  | t :: ts => (straight t).bind fun us => (straightAll ts).map (us ++ ·)

end

mutual

theorem steps_straight (ω : Nat → Bool) (K : List ScheduleTree) (k : Nat) : (t : ScheduleTree) →
    (us : List String) → straight t = some us → ∃ n, Steps (readStep ω) n (t :: K, k) us (K, k)
  | .run x, us, h => by
    obtain rfl := Option.some.inj h
    exact ⟨1, .one (e := some x) rfl⟩
  | .seq ts, us, h => by
    obtain ⟨n, hn⟩ := steps_straightAll ω K k ts us h
    exact ⟨n + 1, .silent_cons rfl hn⟩
  | .par ts, us, h => by
    obtain ⟨n, hn⟩ := steps_straightAll ω K k ts us h
    exact ⟨n + 1, .silent_cons rfl hn⟩
  | .gpuSync _, us, h => by
    obtain rfl := Option.some.inj h
    exact ⟨1, .one (e := none) rfl⟩
  | .gpuUpload _, us, h => by
    obtain rfl := Option.some.inj h
    exact ⟨1, .one (e := none) rfl⟩

theorem steps_straightAll (ω : Nat → Bool) (K : List ScheduleTree) (k : Nat) :
    (ts : List ScheduleTree) → (us : List String) → straightAll ts = some us →
    ∃ n, Steps (readStep ω) n (ts ++ K, k) us (K, k)
  | [], us, h => by
    obtain rfl := Option.some.inj h
    exact ⟨0, .refl _⟩
  | t :: ts, us, h => by
    obtain ⟨vs, hvs, h⟩ := Option.bind_eq_some_iff.mp h
    obtain ⟨ws, hws, rfl⟩ := Option.map_eq_some_iff.mp h
    obtain ⟨m, hm⟩ := steps_straight ω (ts ++ K) k t vs hvs
    obtain ⟨n, hn⟩ := steps_straightAll ω K k ts ws hws
    exact ⟨m + n, hm.trans hn⟩

end

/-- A straight schedule runs its systems and ends. -/
theorem ends_straight {t : ScheduleTree} {us : List String} (h : straight t = some us)
    (ω : Nat → Bool) : Ends (readStep ω) ([t], 0) us := by
  obtain ⟨n, hn⟩ := steps_straight ω [] 0 t us h
  exact ⟨n, _, hn, rfl⟩

/-- The entry follows the schedules that run the systems in the order of their declarations. -/
theorem entry_follows (p : Program) (t : ScheduleTree) (h : Decl.run t ∈ p) :
    Follows p t ↔ ∀ ω, Ends (readStep ω) ([t], 0) ((runOnceSystems p).map (·.1)) := by
  have hentry := ends_generate h
  constructor
  · intro hfollows ω
    exact (hfollows ω _).2.mp hentry
  · intro hread ω us
    rw [hentry.shows_iff, (hread ω).shows_iff]
    refine ⟨Iff.rfl, fun hends => ?_, fun hends => ?_⟩
    · rw [hends.unique hentry]
      exact hread ω
    · rw [hends.unique (hread ω)]
      exact hentry

/-- Two systems, scheduled in the order of their declarations. -/
def inOrder : Program :=
  [.kernel "tick" .system 0 [], .kernel "draw" .system 0 [], .run (.seq [.run "tick", .run "draw"])]

theorem entry_follows_inOrder : Follows inOrder (.seq [.run "tick", .run "draw"]) :=
  (entry_follows inOrder _ (by simp [inOrder])).mpr fun ω => ends_straight (by decide) ω

/-- The same systems, scheduled as `tick, tick`. -/
def twice : Program :=
  [.kernel "tick" .system 0 [], .kernel "draw" .system 0 [], .run (.seq [.run "tick", .run "tick"])]

theorem not_entry_follows : ¬∀ p t, Decl.run t ∈ p → Follows p t := by
  intro h
  have hmem : Decl.run (.seq [.run "tick", .run "tick"]) ∈ twice := by simp [twice]
  have hread : Ends (readStep fun _ => false) ([.seq [.run "tick", .run "tick"]], 0) ["tick", "tick"] :=
    ends_straight (by decide) _
  have hentry := ((h twice _ hmem fun _ => false) _).2.mpr hread
  have huniq := hentry.unique (ends_generate hmem)
  exact absurd huniq (by decide)

end Arche.Codegen.WasmGen
