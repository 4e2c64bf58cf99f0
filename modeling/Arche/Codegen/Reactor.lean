import Arche.Codegen.EmitSched

/-!
# The reactor build

A browser cannot block in a loop. For wasm the schedule of a program with a `forever` at
its top is therefore printed as two functions (`codegen_generate`): `arche_run` is the
schedule without the loop, `arche_frame` is the body of the loop. The host calls
`arche_run` once and `arche_frame` once for every frame.

The command build prints the whole schedule as one function. Cut after `n` rounds of the
loop it does what stands before the loop and then the body `n` times (`shows_command_iff`),
and a halt ends it.

1. `reactor_agrees`: with nothing after the loop, and no halt in a call that another call
   follows, the calls of the host run the kernels of the command build.
2. `not_reactor_agrees`: what follows the loop runs before it, and after a halt the next
   frame runs its kernels.
-/

namespace Arche.Codegen.Reactor

open Arche.Lib.Machine EmitSched

/-! ## The split -/

/-- The children before the first loop, its body, and the children after it. -/
def splitLoop : List ScheduleTree → Option (List ScheduleTree × ScheduleTree × List ScheduleTree)
  | [] => none
  | .loop b :: ts => some ([], b, ts)
  | t :: ts => (splitLoop ts).map fun (pre, b, post) => (t :: pre, b, post)

/-- `cg_reactor_top_loop`, with what stands around the loop. -/
def cgReactorTopLoop :
    ScheduleTree → Option (List ScheduleTree × ScheduleTree × List ScheduleTree)
  | .loop b => some ([], b, [])
  | .seq ts => splitLoop ts
  | .par ts => splitLoop ts
  | _ => none

variable (cx : Ctx)

/-- `init_tree` has every child of the root but the loop. -/
def archeRun (pre post : List ScheduleTree) : List Line := codegenSchedFn cx (.seq (pre ++ post))

def archeFrame (b : ScheduleTree) : List Line := codegenSchedFn cx b

/-! ## The host -/

/-- A step of the function that was called last. -/
def callStep (ω : Nat → Bool) :
    List Line × Nat × Nat → Option (Option String × List Line × Nat × Nat)
  | (c, s) => (execStep c ω s).map fun (e, s') => (e, c, s')

/-- The call of a function; the predicates go on where they are. -/
def call (s : List Line × Nat × Nat) (c : List Line) : List Line × Nat × Nat := (c, 1, s.2.2)

/-- `arche_run` once, then `arche_frame` `n` times. -/
abbrev hostStep (ω : Nat → Bool) := chain (callStep ω) call

def host (pre : List ScheduleTree) (b : ScheduleTree) (post : List ScheduleTree) (n : Nat) :
    (List Line × Nat × Nat) × List (List Line) :=
  ((archeRun cx pre post, 1, 0), List.replicate n (archeFrame cx b))

/-! ## The command build, cut -/

/-- What the command build does up to the end of the `n`-th round. -/
def cut (pre : List ScheduleTree) (b : ScheduleTree) (n : Nat) : List ScheduleTree :=
  pre ++ List.replicate n b

/-- A halt is met. -/
def Halts (ω : Nat → Bool) (K : List ScheduleTree) : Prop :=
  ∃ m us K' k, Steps (readStep ω) m (K, 0) us (.halt :: K', k)

section

variable {ω : Nat → Bool} {K K' X : List ScheduleTree} {k k' m : Nat} {us : List String}
  {e : Option String}

/-- What lies deeper on the stack is not touched. -/
theorem readStep_append (h : readStep ω (K, k) = some (e, K', k')) :
    readStep ω (K ++ X, k) = some (e, K' ++ X, k') := by
  cases K with
  | nil => cases h
  | cons t K =>
    cases t with
    | halt => cases h
    | run | gpuSync | gpuUpload | seq | par | loop =>
      obtain ⟨rfl, rfl, rfl⟩ := by simpa only [readStep, Option.some.injEq, Prod.mk.injEq] using h
      simp [readStep]
    | whenT p t =>
      obtain ⟨rfl, rfl, rfl⟩ := by simpa only [readStep, Option.some.injEq, Prod.mk.injEq] using h
      cases hω : ω k <;> simp [readStep, hω]

theorem readSteps_append (h : Steps (readStep ω) m (K, k) us (K', k')) :
    Steps (readStep ω) m (K ++ X, k) us (K' ++ X, k') := by
  generalize hs : (K, k) = s at h
  generalize ht : (K', k') = t at h
  induction h generalizing K k with
  | refl s =>
    cases hs
    cases ht
    exact .refl _
  | @cons n s s₁ t e us hstep _ ih =>
    cases hs
    obtain ⟨K₁, k₁⟩ := s₁
    exact .cons (readStep_append hstep) (ih rfl ht)

theorem readStep_eq_none (h : readStep ω (K, k) = none) : K = [] ∨ ∃ K', K = .halt :: K' := by
  cases K with
  | nil => exact .inl rfl
  | cons t K =>
    cases t with
    | halt => exact .inr ⟨K, rfl⟩
    | run | gpuSync | gpuUpload | seq | par | loop | whenT => cases h

/-- A stack with something on top of `X` goes on as the top does. -/
theorem readStep_append_inv (hK : K ≠ []) (h : readStep ω (K ++ X, k) = some (e, K', k')) :
    ∃ K₁, readStep ω (K, k) = some (e, K₁, k') ∧ K' = K₁ ++ X := by
  cases hstep : readStep ω (K, k) with
  | none =>
    rcases readStep_eq_none hstep with rfl | ⟨K₀, rfl⟩
    · exact absurd rfl hK
    · cases h
  | some p =>
    obtain ⟨e', K₁, k₁⟩ := p
    obtain ⟨rfl, rfl, rfl⟩ := by
      simpa only [Option.some.injEq, Prod.mk.injEq] using (readStep_append (X := X) hstep).symm.trans h
    exact ⟨K₁, rfl, rfl⟩

variable {pre post : List ScheduleTree} {b t : ScheduleTree}

theorem splitLoop_eq {ts : List ScheduleTree} (h : splitLoop ts = some (pre, b, post)) :
    ts = pre ++ .loop b :: post := by
  induction ts generalizing pre with
  | nil => cases h
  | cons t ts ih =>
    cases t with
    | loop b' =>
      obtain ⟨rfl, rfl, rfl⟩ := by simpa only [splitLoop, Option.some.injEq, Prod.mk.injEq] using h
      rfl
    | run | halt | gpuSync | gpuUpload | seq | par | whenT =>
      obtain ⟨⟨pre', b', post'⟩, hsplit, heq⟩ := Option.map_eq_some_iff.mp h
      obtain ⟨rfl, rfl, rfl⟩ := by simpa only [Prod.mk.injEq] using heq
      rw [ih hsplit, List.cons_append]

/-- The command build does what stands before the loop, and then the loop. -/
theorem shows_around_loop (h : cgReactorTopLoop t = some (pre, b, post)) :
    Shows (readStep ω) ([t], 0) us ↔ Shows (readStep ω) (pre ++ .loop b :: post, 0) us := by
  cases t with
  | loop b' =>
    obtain ⟨rfl, rfl, rfl⟩ := by
      simpa only [cgReactorTopLoop, Option.some.injEq, Prod.mk.injEq] using h
    exact Iff.rfl
  | seq ts =>
    rw [shows_silent_iff (t := (ts ++ [], 0)) rfl, List.append_nil, splitLoop_eq h]
  | par ts =>
    rw [shows_silent_iff (t := (ts ++ [], 0)) rfl, List.append_nil, splitLoop_eq h]
  | run | halt | gpuSync | gpuUpload | whenT => cases h

theorem shows_cut_of_loop {s : List ScheduleTree × Nat} {r : Nat} (hr : m ≤ r)
    (h : Steps (readStep ω) m (K ++ .loop b :: post, k) us s) :
    Shows (readStep ω) (K ++ List.replicate r b, k) us := by
  induction m generalizing K k us r with
  | zero =>
    cases h
    exact ⟨0, _, .refl _⟩
  | succ m ih =>
    cases h with
    | @cons _ _ s₁ _ e us hstep hs =>
      obtain ⟨K₁, k₁⟩ := s₁
      cases K with
      | nil =>
        obtain ⟨rfl, rfl, rfl⟩ := by
          simpa only [List.nil_append, readStep, Option.some.injEq, Prod.mk.injEq] using hstep
        obtain ⟨r, rfl⟩ := Nat.exists_eq_add_of_le' (Nat.le_trans (Nat.le_add_left 1 m) hr)
        exact ih (K := [b]) (Nat.le_of_succ_le_succ hr) hs
      | cons u K =>
        obtain ⟨K₂, hstep', rfl⟩ := readStep_append_inv (List.cons_ne_nil u K) hstep
        obtain ⟨n, s', hn⟩ := ih (Nat.le_of_succ_le hr) hs
        exact ⟨n + 1, s', .cons (readStep_append hstep') hn⟩

theorem shows_loop_of_cut {s : List ScheduleTree × Nat} {r : Nat}
    (h : Steps (readStep ω) m (K ++ List.replicate r b, k) us s) :
    Shows (readStep ω) (K ++ .loop b :: post, k) us := by
  induction m generalizing K k us r with
  | zero =>
    cases h
    exact ⟨0, _, .refl _⟩
  | succ m ih =>
    have htop {K : List ScheduleTree} {r : Nat} (hK : K ≠ [])
        (h : Steps (readStep ω) (m + 1) (K ++ List.replicate r b, k) us s) :
        Shows (readStep ω) (K ++ .loop b :: post, k) us := by
      cases h with
      | @cons _ _ s₁ _ e us hstep hs =>
        obtain ⟨K₁, k₁⟩ := s₁
        obtain ⟨K₂, hstep', rfl⟩ := readStep_append_inv hK hstep
        obtain ⟨n, s', hn⟩ := ih hs
        exact ⟨n + 1, s', .cons (readStep_append hstep') hn⟩
    cases K with
    | cons u K => exact htop (List.cons_ne_nil u K) h
    | nil =>
      cases r with
      | zero => cases h with | cons hstep _ => cases hstep
      | succ r =>
        exact (shows_silent_iff (t := ([b] ++ .loop b :: post, k)) rfl).mpr
          (htop (List.cons_ne_nil b []) h)

/-- What the command build shows is what it shows within some number of rounds. -/
theorem shows_command_iff (h : cgReactorTopLoop t = some (pre, b, post)) :
    Shows (execStep (codegenSchedFn cx t) ω) (1, 0) us ↔
      ∃ n, Shows (readStep ω) (cut pre b n, 0) us := by
  have hlock := readStep_lockstep cx (emitSched_wellFormed cx t).nodup_labels ω
  rw [← hlock.shows_iff (s := ([t], 0)) ⟨impl_codegenSchedFn cx t, rfl⟩, shows_around_loop h]
  constructor
  · rintro ⟨m, s, hm⟩
    exact ⟨m, shows_cut_of_loop (Nat.le_refl m) hm⟩
  · rintro ⟨n, m, s, hm⟩
    exact shows_loop_of_cut hm

/-! ## The calls of the host -/

theorem callSteps {c : List Line} {s s' : Nat × Nat} (h : Steps (execStep c ω) m s us s') :
    Steps (callStep ω) m (c, s) us (c, s') := by
  induction h with
  | refl s => exact .refl _
  | cons hstep _ ih =>
    refine .cons ?_ ih
    simp only [callStep, hstep, Option.map_some]

/-- The called function does what is on the stack. -/
def Calls (s : List ScheduleTree × Nat) (c : List Line × Nat × Nat) : Prop :=
  (labels c.1).Nodup ∧ Impl cx c.1 c.2.1 s.1 ∧ s.2 = c.2.2

theorem readStep_callStep (ω : Nat → Bool) :
    Lockstep (readStep ω) (callStep ω) (Calls cx) fun s => weightAll s.1 where
  ended := by
    rintro ⟨K, k⟩ ⟨c, pc, k'⟩ ⟨hnodup, himpl, rfl⟩ hstep
    obtain ⟨n, pc', hn, hend, himpl'⟩ := himpl.ended hnodup hstep
    refine ⟨n, (c, pc', k), callSteps hn, ?_, hnodup, himpl', rfl⟩
    simp only [callStep, hend, Option.map_none]
  moves := by
    rintro ⟨K, k⟩ ⟨c, pc, k'⟩ e ⟨K', k''⟩ ⟨hnodup, himpl, rfl⟩ hstep
    rcases himpl.moves hnodup hstep with ⟨n, pc', hn, himpl'⟩ | ⟨rfl, rfl, himpl', hlt⟩
    · exact .inl ⟨n, (c, pc', k''), callSteps hn, hnodup, himpl', rfl⟩
    · exact .inr ⟨rfl, ⟨hnodup, himpl', rfl⟩, hlt⟩

/-- The trees the functions are printed from, read one after the other. -/
abbrev readChain (ω : Nat → Bool) :=
  chain (readStep ω) fun s (t : ScheduleTree) => ([t], s.2)

theorem readChain_hostStep (ω : Nat → Bool) :
    Lockstep (readChain ω) (hostStep ω)
      (fun s t => Calls cx s.1 t.1 ∧ List.Forall₂ (fun u c => c = codegenSchedFn cx u) s.2 t.2)
      fun s => weightAll s.1.1 := by
  refine (readStep_callStep cx ω).chain ?_
  rintro ⟨K, k⟩ ⟨c, pc, k'⟩ u f ⟨-, -, rfl⟩ rfl
  exact ⟨(emitSched_wellFormed cx u).nodup_labels, impl_codegenSchedFn cx u, rfl⟩

theorem calls_host (pre post : List ScheduleTree) (b : ScheduleTree) (n : Nat) :
    Calls cx ([.seq (pre ++ post)], 0) (host cx pre b post n).1 ∧
      List.Forall₂ (fun u c => c = codegenSchedFn cx u) (List.replicate n b)
        (host cx pre b post n).2 := by
  refine ⟨⟨(emitSched_wellFormed cx (.seq (pre ++ post))).nodup_labels,
    impl_codegenSchedFn cx (.seq (pre ++ post)), rfl⟩, ?_⟩
  unfold host
  induction n with
  | zero => exact .nil
  | succ n ih => exact .cons rfl ih

/-! ## Agreement -/

/-- `n - r` rounds and what is on the stack are done, `r` rounds are still to come. -/
def Behind (ω : Nat → Bool) (pre : List ScheduleTree) (b : ScheduleTree) (n : Nat)
    (s : List ScheduleTree × Nat) (t : (List ScheduleTree × Nat) × List ScheduleTree) : Prop :=
  ∃ K k r, s = (K ++ List.replicate r b, k) ∧ t = ((K, k), List.replicate r b) ∧ r ≤ n ∧
    ∃ m us, Steps (readStep ω) m (cut pre b (n - r), 0) us (K, k)

/-- Between two rounds the host calls the next frame. -/
theorem Behind.refill {n : Nat} {s : List ScheduleTree × Nat}
    {t : (List ScheduleTree × Nat) × List ScheduleTree} (h : Behind ω pre b n s t) :
    s.1 = [] ∧ t = (s, []) ∨
      ∃ j K k r, K ≠ [] ∧ s = (K ++ List.replicate r b, k) ∧
        Steps (readChain ω) j t [] ((K, k), List.replicate r b) ∧ r ≤ n ∧
        ∃ m us, Steps (readStep ω) m (cut pre b (n - r), 0) us (K, k) := by
  obtain ⟨K, k, r, rfl, rfl, hr, m, us, hm⟩ := h
  cases K with
  | cons u K => exact .inr ⟨0, u :: K, k, r, List.cons_ne_nil u K, rfl, .refl _, hr, m, us, hm⟩
  | nil =>
    cases r with
    | zero => exact .inl ⟨rfl, rfl⟩
    | succ r =>
      refine .inr ⟨1, [b], k, r, List.cons_ne_nil b [], rfl, Steps.one (e := none) rfl, by omega, m,
        us, ?_⟩
      have hcut : cut pre b (n - r) = cut pre b (n - (r + 1)) ++ [b] := by
        have hn : n - r = n - (r + 1) + 1 := by omega
        rw [hn, cut, cut, List.replicate_succ', List.append_assoc]
      rw [hcut]
      exact readSteps_append hm

theorem cut_readChain {n : Nat} (hhalt : ∀ i < n, ¬ Halts ω (cut pre b i)) :
    Lockstep (readStep ω) (readChain ω) (Behind ω pre b n) fun _ => 0 where
  ended := by
    rintro s t hR hstep
    rcases hR.refill with ⟨hnil, rfl⟩ | ⟨j, K, k, r, hK, rfl, hj, hr, m, us, hm⟩
    · refine ⟨0, (s, []), .refl _, ?_, hR⟩
      simp only [readChain, chain, hstep]
    · rcases readStep_eq_none hstep with hnil | ⟨K', hhead⟩
      · exact absurd (List.append_eq_nil_iff.mp hnil).1 hK
      · obtain ⟨u, K, rfl⟩ := List.exists_cons_of_ne_nil hK
        obtain ⟨rfl, -⟩ := List.cons.inj hhead
        obtain rfl : r = 0 := by
          -- a halt with rounds to come
          by_contra hpos
          exact hhalt (n - r) (by omega) ⟨m, us, K, k, hm⟩
        refine ⟨j, _, hj, rfl, ?_⟩
        exact ⟨.halt :: K, k, 0, rfl, rfl, hr, m, us, hm⟩
  moves := by
    rintro s t e ⟨K', k'⟩ hR hstep
    rcases hR.refill with ⟨hnil, rfl⟩ | ⟨j, K, k, r, hK, rfl, hj, hr, m, us, hm⟩
    · obtain ⟨K, k⟩ := s
      obtain rfl : K = [] := hnil
      cases hstep
    · obtain ⟨K₁, hstep', rfl⟩ := readStep_append_inv hK hstep
      refine .inl ⟨j, ((K₁, k'), List.replicate r b), ?_, K₁, k', r, rfl, rfl, hr, m + 1,
        us ++ e.toList, ?_⟩
      · refine hj.trans (Steps.one ?_)
        simp only [readChain, chain, hstep']
      · exact hm.trans (Steps.one hstep')

end

/-- For every schedule with a loop at its top and nothing after it: in every run in which no halt is
executed by a call that another call follows, `arche_run` and `n` times `arche_frame` run the
kernels of the command build cut after `n` rounds. -/
theorem reactor_agrees (cx : Ctx) {t : ScheduleTree} {pre post : List ScheduleTree}
    {b : ScheduleTree} (h : cgReactorTopLoop t = some (pre, b, post)) (hpost : post = [])
    (ω : Nat → Bool) (n : Nat) (hhalt : ∀ i < n, ¬ Halts ω (cut pre b i)) (us : List String) :
    (Shows (hostStep ω) (host cx pre b post n) us ↔ Shows (readStep ω) (cut pre b n, 0) us) ∧
      (Ends (hostStep ω) (host cx pre b post n) us ↔ Ends (readStep ω) (cut pre b n, 0) us) := by
  subst hpost
  have hcalls := calls_host cx pre [] b n
  have hstart : readChain ω (([.seq (pre ++ [])], 0), List.replicate n b) =
      some (none, (pre, 0), List.replicate n b) := by
    simp [readChain, chain, readStep]
  have hbehind : Behind ω pre b n (cut pre b n, 0) ((pre, 0), List.replicate n b) := by
    refine ⟨pre, 0, n, rfl, rfl, Nat.le_refl n, 0, [], ?_⟩
    rw [Nat.sub_self, cut, List.replicate_zero, List.append_nil]
    exact .refl _
  rw [← (readChain_hostStep cx ω).shows_iff (s := (([.seq (pre ++ [])], 0), List.replicate n b)) hcalls,
    ← (readChain_hostStep cx ω).ends_iff (s := (([.seq (pre ++ [])], 0), List.replicate n b)) hcalls,
    shows_silent_iff hstart, ends_silent_iff hstart]
  exact ⟨((cut_readChain hhalt).shows_iff hbehind).symm, ((cut_readChain hhalt).ends_iff hbehind).symm⟩

def exCtx : Ctx := ⟨fun _ => 0, fun _ => false⟩

/-- One frame: `step`, and a halt once `over` holds. -/
def exFrame : ScheduleTree := .seq [.run "step", .whenT (some "over") .halt]

/-- `setup`, then frames; `over` holds in the second. -/
theorem reactor_agrees_exFrame :
    cgReactorTopLoop (.seq [.run "setup", .loop exFrame]) = some ([.run "setup"], exFrame, []) ∧
      ∀ us, Ends (hostStep (· == 1)) (host exCtx [.run "setup"] exFrame [] 2) us ↔
        Ends (readStep (· == 1)) (cut [.run "setup"] exFrame 2, 0) us := by
  have hloop : cgReactorTopLoop (.seq [.run "setup", .loop exFrame]) =
      some ([.run "setup"], exFrame, []) := rfl
  refine ⟨hloop, fun us => (reactor_agrees exCtx hloop rfl (· == 1) 2 ?_ us).2⟩
  rintro i hi ⟨m, vs, K, k, hm⟩
  match i with
  | 0 => cases hm.eq_runFor (n := 5) rfl rfl rfl
  | 1 => cases hm.eq_runFor (n := 5) rfl rfl rfl

/-- In the command build `after` does not run and the halt in the first frame is the end. In the
reactor build `after` runs first, and the second frame runs `step` again. -/
theorem not_reactor_agrees :
    cgReactorTopLoop (.seq [.loop (.seq [.run "step", .halt]), .run "after"]) =
      some ([], .seq [.run "step", .halt], [.run "after"]) ∧
    Ends (readStep fun _ => true) ([.seq [.loop (.seq [.run "step", .halt]), .run "after"]], 0) ["step"] ∧
    Ends (readStep fun _ => true) (cut [] (.seq [.run "step", .halt]) 2, 0) ["step"] ∧
    Ends (hostStep fun _ => true) (host exCtx [] (.seq [.run "step", .halt]) [.run "after"] 2)
      ["after", "step", "step"] := by
  refine ⟨rfl, ?_, ?_, ?_⟩
  · exact ends_runFor 10 rfl rfl
  · exact ends_runFor 10 rfl rfl
  · exact ends_runFor 10 rfl rfl

end Arche.Codegen.Reactor
