import Arche.Codegen.GpuCoherence
import Arche.Lib.Lockstep
import Mathlib.Data.List.Nodup

/-!
# Emitting the schedule

`emit_sched` of codegen.c walks the schedule of a program and prints a function: a label
for the head of every loop, two labels for every `when`, and `ret void` for a halt. It
carries the counter the labels are numbered from and whether the block it is printing
into has ended.

The meaning of a schedule is read off the tree step by step (`readStep`), with the trees
that are still to be done on a stack. The meaning of the printed function is that of its
labels and branches (`execStep`). Both are asked for the outcomes of the `when`
predicates in the order in which they come up, and both show the kernels they run.

* The code of a kernel run and of a transfer is one line. It may take names from the
  counter (`Ctx.names`), and a transfer may print nothing (`Ctx.transfers`).
* The call of a predicate, the test of its answer and the branch are one line.

1. `emitSched_wellFormed`: every block of the function ends in exactly one terminator,
   and every label a branch names is there once.
2. `readStep_lockstep`: the function follows the reading of the tree.
3. `emitSched_runs`: both in one statement.
-/

namespace Arche.Codegen.EmitSched

open Arche.Lib.Machine

abbrev ScheduleTree := GpuCoherence.Out

/-! ## The printed function -/

inductive Label
  | entry
  | sched (id : Nat)
  | whenThen (id : Nat)
  | whenElse (id : Nat)
deriving DecidableEq, Repr

inductive Line
  | label (l : Label)
  | run (sym : String)
  | transfer (pool : Option String)
  | br (l : Label)
  | brIf (pred : Option String) (t e : Label)
  | ret
deriving DecidableEq, Repr

/-- `value_counter` and `block_terminated`. -/
structure State where
  counter : Nat
  terminated : Bool

structure Ctx where
  names : Option String → Nat
  transfers : Option String → Bool

variable (cx : Ctx)

def emitTransfer (pool : Option String) (n : Nat) : List Line × State :=
  if cx.transfers pool then ([.transfer pool], ⟨n + cx.names pool, false⟩) else ([], ⟨n, false⟩)

mutual

/-- `emit_sched`, into a block that has not ended. -/
def emitSched (n : Nat) : ScheduleTree → List Line × State
  | .halt => ([.ret], ⟨n, true⟩)
  | .run sym => ([.run sym], ⟨n + cx.names (some sym), false⟩)
  | .seq ts => emitAll n ts
  | .par ts => emitAll n ts
  | .loop t =>
    let (ls, s) := emitSched (n + 1) t
    ([.br (.sched n), .label (.sched n)] ++ ls ++ (if s.terminated then [] else [.br (.sched n)]),
      -- only a halt leaves the loop
      ⟨s.counter, true⟩)
  | .whenT p t =>
    -- two more numbers go to the answer of the predicate and to its test
    let (ls, s) := emitSched (n + 3) t
    ([.brIf p (.whenThen n) (.whenElse n), .label (.whenThen n)] ++ ls ++
        (if s.terminated then [] else [.br (.whenElse n)]) ++ [.label (.whenElse n)],
      ⟨s.counter, false⟩)
  | .gpuSync pool => emitTransfer cx pool n
  | .gpuUpload pool => emitTransfer cx (some pool) n

/-- The children of a node, as long as the block has not ended. -/
def emitAll (n : Nat) : List ScheduleTree → List Line × State
  | [] => ([], ⟨n, false⟩)
  | t :: ts =>
    let (ls, s) := emitSched n t
    if s.terminated then (ls, s)
    else
      let (ms, s') := emitAll s.counter ts
      (ls ++ ms, s')

end

/-- `codegen_sched_fn`. -/
def codegenSchedFn (t : ScheduleTree) : List Line :=
  let (ls, s) := emitSched cx 0 t
  .label .entry :: ls ++ (if s.terminated then [] else [.ret])

/-! ## What the function does -/

/-- Where the block of a label starts. -/
def target (body : List Line) (l : Label) : Option Nat := (body.idxOf? (.label l)).map (· + 1)

/-- The state is the line to execute and the number of predicates asked so far; `ω k` is the
answer to the `k`-th. -/
def execStep (body : List Line) (ω : Nat → Bool) : Nat × Nat → Option (Option String × Nat × Nat)
  | (pc, k) =>
    match body[pc]? with
    | some (.run sym) => some (some sym, pc + 1, k)
    | some (.transfer _) => some (none, pc + 1, k)
    | some (.br l) => (target body l).map fun q => (none, q, k)
    | some (.brIf _ t e) => (target body (if ω k then t else e)).map fun q => (none, q, k + 1)
    | some .ret => none
    | some (.label _) => none
    | none => none

/-! ## What the schedule means -/

/-- The state is what is to be done and the number of predicates asked so far. -/
def readStep (ω : Nat → Bool) :
    List ScheduleTree × Nat → Option (Option String × List ScheduleTree × Nat)
  | ([], _) => none
  | (.halt :: _, _) => none
  | (.run sym :: K, k) => some (some sym, K, k)
  | (.seq ts :: K, k) => some (none, ts ++ K, k)
  | (.par ts :: K, k) => some (none, ts ++ K, k)
  | (.loop t :: K, k) => some (none, t :: .loop t :: K, k)
  | (.whenT _ t :: K, k) => some (none, if ω k then t :: K else K, k + 1)
  | (.gpuSync _ :: K, k) => some (none, K, k)
  | (.gpuUpload _ :: K, k) => some (none, K, k)

/-! ## Blocks -/

def Line.isTerminator : Line → Bool
  | .br _ | .brIf _ _ _ | .ret => true
  | _ => false

/-- Reads lines into blocks: `none` where a block would have no terminator or more than one, else
whether the last block is still open. -/
def blocks : Bool → List Line → Option Bool
  | opened, [] => some opened
  | opened, .label _ :: ls => if opened then none else blocks true ls
  | opened, l :: ls => if opened then blocks (!l.isTerminator) ls else none

def labels (body : List Line) : List Label := body.filterMap fun
  | .label l => some l
  | _ => none

def targets (body : List Line) : List Label := body.flatMap fun
  | .br l => [l]
  | .brIf _ t e => [t, e]
  | _ => []

/-- The text is a function of basic blocks. -/
structure WellFormed (body : List Line) : Prop where
  blocks_eq : blocks false body = some false
  nodup_labels : (labels body).Nodup
  targets_mem : ∀ l ∈ targets body, l ∈ labels body

theorem blocks_append (opened : Bool) (xs ys : List Line) :
    blocks opened (xs ++ ys) = (blocks opened xs).bind fun b => blocks b ys := by
  induction xs generalizing opened with
  | nil => rfl
  | cons x xs ih =>
    cases x with
    | label l =>
      simp only [List.cons_append, blocks]
      split
      · rfl
      · exact ih true
    | run | transfer | br | brIf | ret =>
      simp only [List.cons_append, blocks]
      split
      · exact ih _
      · rfl

theorem labels_append (xs ys : List Line) : labels (xs ++ ys) = labels xs ++ labels ys :=
  List.filterMap_append

theorem targets_append (xs ys : List Line) : targets (xs ++ ys) = targets xs ++ targets ys :=
  List.flatMap_append

/-- The label is numbered from `n` on, below `m`. -/
def Label.Within (n m : Nat) : Label → Prop
  | .entry => False
  | .sched id | .whenThen id | .whenElse id => n ≤ id ∧ id < m

theorem Label.Within.mono {n m n' m' : Nat} {l : Label} (h : l.Within n m) (hn : n' ≤ n)
    (hm : m ≤ m') : l.Within n' m' := by
  cases l with
  | entry => exact h
  | sched | whenThen | whenElse => exact ⟨Nat.le_trans hn h.1, Nat.lt_of_lt_of_le h.2 hm⟩

/-- What the lines printed from an open block are like. -/
structure Emitted (n : Nat) (ls : List Line) (s : State) : Prop where
  le_counter : n ≤ s.counter
  blocks_eq : blocks true ls = some (!s.terminated)
  within : ∀ l ∈ labels ls, l.Within n s.counter
  nodup : (labels ls).Nodup
  targets_mem : ∀ l ∈ targets ls, l ∈ labels ls

namespace Emitted

variable {n : Nat} {ls ms : List Line} {s s' : State}

theorem nil (n : Nat) : Emitted n [] ⟨n, false⟩ :=
  ⟨Nat.le_refl n, rfl, nofun, List.nodup_nil, nofun⟩

theorem append (h : Emitted n ls s) (hopen : s.terminated = false) (h' : Emitted s.counter ms s') :
    Emitted n (ls ++ ms) s' := by
  refine ⟨Nat.le_trans h.le_counter h'.le_counter, ?_, ?_, ?_, ?_⟩
  · rw [blocks_append, h.blocks_eq, hopen]
    exact h'.blocks_eq
  · rw [labels_append, List.forall_mem_append]
    exact ⟨fun l hl => (h.within l hl).mono (Nat.le_refl _) h'.le_counter,
      fun l hl => (h'.within l hl).mono h.le_counter (Nat.le_refl _)⟩
  · rw [labels_append]
    refine List.Nodup.append h.nodup h'.nodup fun l hl hl' => ?_
    -- the second part is numbered from where the first stopped
    have hlow := h.within l hl
    have hhigh := h'.within l hl'
    cases l with
    | entry => exact hlow
    | sched | whenThen | whenElse => exact absurd hlow.2 (Nat.not_lt.mpr hhigh.1)
  · rw [targets_append, labels_append, List.forall_mem_append]
    exact ⟨fun l hl => List.mem_append_left _ (h.targets_mem l hl),
      fun l hl => List.mem_append_right _ (h'.targets_mem l hl)⟩

theorem loop (h : Emitted (n + 1) ls s) :
    Emitted n ([.br (.sched n), .label (.sched n)] ++ ls ++
      (if s.terminated then [] else [.br (.sched n)])) ⟨s.counter, true⟩ := by
  have hle : n + 1 ≤ s.counter := h.le_counter
  have hlabels : labels ([.br (.sched n), .label (.sched n)] ++ ls ++
      (if s.terminated then [] else [.br (.sched n)])) = .sched n :: labels ls := by
    split <;> simp [labels, List.filterMap_append]
  refine ⟨Nat.le_of_succ_le hle, ?_, ?_, ?_, ?_⟩
  · rw [blocks_append, blocks_append]
    simp only [blocks, Line.isTerminator, Bool.not_true, Bool.false_eq_true, if_false, if_true,
      Option.bind_some, h.blocks_eq]
    cases s.terminated <;> rfl
  · rw [hlabels, List.forall_mem_cons]
    exact ⟨⟨Nat.le_refl n, hle⟩,
      fun l hl => (h.within l hl).mono (Nat.le_succ n) (Nat.le_refl _)⟩
  · rw [hlabels, List.nodup_cons]
    refine ⟨fun hl => ?_, h.nodup⟩
    exact absurd (h.within _ hl).1 (Nat.not_succ_le_self n)
  · intro l hl
    rw [hlabels, List.mem_cons]
    have hl' : l = .sched n ∨ l ∈ targets ls := by
      rw [targets_append, targets_append] at hl
      split at hl <;> simpa [targets, or_comm, or_assoc] using hl
    exact hl'.imp_right (h.targets_mem l)

theorem whenT (p : Option String) (h : Emitted (n + 3) ls s) :
    Emitted n ([.brIf p (.whenThen n) (.whenElse n), .label (.whenThen n)] ++ ls ++
      (if s.terminated then [] else [.br (.whenElse n)]) ++ [.label (.whenElse n)])
      ⟨s.counter, false⟩ := by
  have hle : n + 3 ≤ s.counter := h.le_counter
  have hlabels : labels ([.brIf p (.whenThen n) (.whenElse n), .label (.whenThen n)] ++ ls ++
      (if s.terminated then [] else [.br (.whenElse n)]) ++ [.label (.whenElse n)]) =
      .whenThen n :: (labels ls ++ [.whenElse n]) := by
    split <;> simp [labels, List.filterMap_append]
  have hfresh {l : Label} (hl : l ∈ labels ls) : l ≠ .whenThen n ∧ l ≠ .whenElse n := by
    have hnum := h.within l hl
    constructor <;> rintro rfl <;> exact absurd hnum.1 (by omega)
  refine ⟨by show n ≤ s.counter; omega, ?_, ?_, ?_, ?_⟩
  · rw [blocks_append, blocks_append, blocks_append]
    simp only [blocks, Line.isTerminator, Bool.not_true, Bool.false_eq_true, if_false, if_true,
      Option.bind_some, h.blocks_eq]
    cases s.terminated <;> rfl
  · have hnum : n < s.counter := by omega
    rw [hlabels, List.forall_mem_cons, List.forall_mem_append, List.forall_mem_singleton]
    exact ⟨⟨Nat.le_refl n, hnum⟩,
      fun l hl => (h.within l hl).mono (by omega) (Nat.le_refl _), Nat.le_refl n, hnum⟩
  · rw [hlabels, List.nodup_cons, List.mem_append, List.mem_singleton]
    refine ⟨?_, List.Nodup.append h.nodup (List.nodup_singleton _) ?_⟩
    · rintro (hl | hl)
      · exact (hfresh hl).1 rfl
      · cases hl
    · intro l hl hl'
      exact (hfresh hl).2 (List.mem_singleton.mp hl')
  · intro l hl
    rw [hlabels, List.mem_cons, List.mem_append, List.mem_singleton]
    have hl' : l = .whenThen n ∨ l = .whenElse n ∨ l ∈ targets ls := by
      rw [targets_append, targets_append, targets_append] at hl
      split at hl <;>
        simp only [targets, List.flatMap_cons, List.flatMap_nil, List.append_nil, List.mem_append,
          List.mem_cons, List.not_mem_nil, or_false] at hl <;>
        tauto
    rcases hl' with rfl | rfl | hl'
    · exact .inl rfl
    · exact .inr (.inr rfl)
    · exact .inr (.inl (h.targets_mem l hl'))

end Emitted

variable {cx} in
theorem emitTransfer_emitted (n : Nat) (pool : Option String) :
    Emitted n (emitTransfer cx pool n).1 (emitTransfer cx pool n).2 := by
  unfold emitTransfer
  split
  · exact ⟨Nat.le_add_right .., rfl, nofun, List.nodup_nil, nofun⟩
  · exact .nil n

mutual

theorem emitSched_emitted (n : Nat) (t : ScheduleTree) :
    Emitted n (emitSched cx n t).1 (emitSched cx n t).2 := by
  cases t with
  | halt => exact ⟨Nat.le_refl n, rfl, nofun, List.nodup_nil, nofun⟩
  | run sym => exact ⟨Nat.le_add_right .., rfl, nofun, List.nodup_nil, nofun⟩
  | seq ts => exact emitAll_emitted n ts
  | par ts => exact emitAll_emitted n ts
  | loop t => exact (emitSched_emitted (n + 1) t).loop
  | whenT p t => exact (emitSched_emitted (n + 3) t).whenT p
  | gpuSync pool => exact emitTransfer_emitted n pool
  | gpuUpload pool => exact emitTransfer_emitted n (some pool)

theorem emitAll_emitted (n : Nat) (ts : List ScheduleTree) :
    Emitted n (emitAll cx n ts).1 (emitAll cx n ts).2 := by
  cases ts with
  | nil => exact .nil n
  | cons t ts =>
    have h := emitSched_emitted n t
    rw [emitAll]
    dsimp only
    split
    · exact h
    · next hopen =>
      exact h.append (Bool.not_eq_true _ ▸ hopen) (emitAll_emitted _ ts)

end

theorem codegenSchedFn_labels (t : ScheduleTree) :
    labels (codegenSchedFn cx t) = .entry :: labels (emitSched cx 0 t).1 := by
  unfold codegenSchedFn
  dsimp only
  split <;> simp [labels, List.filterMap_append]

/-- The printed function is made of basic blocks. -/
theorem emitSched_wellFormed (t : ScheduleTree) : WellFormed (codegenSchedFn cx t) := by
  have h := emitSched_emitted cx 0 t
  refine ⟨?_, ?_, ?_⟩
  · unfold codegenSchedFn
    dsimp only
    rw [List.cons_append, blocks, if_neg Bool.false_ne_true, blocks_append, h.blocks_eq]
    cases (emitSched cx 0 t).2.terminated <;> rfl
  · rw [codegenSchedFn_labels, List.nodup_cons]
    exact ⟨fun hl => h.within _ hl, h.nodup⟩
  · intro l hl
    rw [codegenSchedFn_labels]
    refine List.mem_cons_of_mem _ (h.targets_mem l ?_)
    unfold codegenSchedFn at hl
    dsimp only at hl
    rw [targets_append] at hl
    split at hl <;> simpa [targets] using hl

/-! ## Code in place -/

section

variable {body : List Line}

/-- The lines stand in the text from position `pc` on. -/
def Placed (body : List Line) : Nat → List Line → Prop
  | _, [] => True
  | pc, l :: ls => body[pc]? = some l ∧ Placed body (pc + 1) ls

theorem placed_append {pc : Nat} {xs ys : List Line} :
    Placed body pc (xs ++ ys) ↔ Placed body pc xs ∧ Placed body (pc + xs.length) ys := by
  induction xs generalizing pc with
  | nil => simp [Placed]
  | cons x xs ih =>
    rw [List.cons_append, Placed, Placed, ih, and_assoc, List.length_cons, Nat.add_assoc,
      Nat.add_comm 1]

theorem placed_mid (xs ls ys : List Line) : Placed (xs ++ ls ++ ys) xs.length ls := by
  induction ls generalizing xs with
  | nil => trivial
  | cons l ls ih =>
    refine ⟨?_, ?_⟩
    · simp
    · have h := ih (xs ++ [l])
      simpa using h

theorem mem_labels {l : Label} : l ∈ labels body ↔ Line.label l ∈ body := by
  unfold labels
  rw [List.mem_filterMap]
  constructor
  · rintro ⟨x, hx, hl⟩
    cases x <;> simp_all
  · intro hl
    exact ⟨_, hl, rfl⟩

/-- A branch goes to where its label stands. -/
theorem target_eq (hnodup : (labels body).Nodup) {q : Nat} {l : Label} (hq : body[q]? = some (.label l)) :
    target body l = some (q + 1) := by
  induction body generalizing q with
  | nil => simp at hq
  | cons x body ih =>
    unfold target at ih ⊢
    cases q with
    | zero =>
      obtain rfl : x = .label l := by simpa using hq
      simp [List.idxOf?_cons]
    | succ q =>
      have hmem : Line.label l ∈ body := List.mem_of_getElem? (by simpa using hq)
      have hne : x ≠ .label l := by
        rintro rfl
        exact (List.nodup_cons.mp hnodup).1 (mem_labels.mpr hmem)
      have hnodup' : (labels body).Nodup := by
        cases x with
        | label => exact (List.nodup_cons.mp hnodup).2
        | run | transfer | br | brIf | ret => exact hnodup
      have h := ih hnodup' (q := q) (by simpa using hq)
      rw [List.idxOf?_cons, if_neg (by simpa using hne)]
      obtain ⟨i, hi, hiq⟩ := Option.map_eq_some_iff.mp h
      rw [hi]
      simp only [Option.map_some]
      rw [hiq]

/-- From position `pc` on, the text does what is on the stack. What follows a tree that ends its
block is not there. -/
inductive Impl (body : List Line) : Nat → List ScheduleTree → Prop
  | done {pc : Nat} (h : body[pc]? = some .ret) : Impl body pc []
  | code {pc n : Nat} {t : ScheduleTree} {K : List ScheduleTree}
      (h : Placed body pc (emitSched cx n t).1)
      (hK : (emitSched cx n t).2.terminated = false →
        Impl body (pc + (emitSched cx n t).1.length) K) : Impl body pc (t :: K)
  | back {pc q n id : Nat} {t : ScheduleTree} {K : List ScheduleTree}
      (h : body[pc]? = some (.br (.sched id))) (hq : body[q]? = some (.label (.sched id)))
      (hbody : Placed body (q + 1) (emitSched cx n t).1)
      (hend : (emitSched cx n t).2.terminated = false →
        body[q + 1 + (emitSched cx n t).1.length]? = some (.br (.sched id))) :
      Impl body pc (.loop t :: K)
  | goto {pc q : Nat} {l : Label} {K : List ScheduleTree} (h : body[pc]? = some (.br l))
      (hq : body[q]? = some (.label l)) (hK : Impl body (q + 1) K) : Impl body pc K

variable {cx}

theorem Impl.all {n pc : Nat} {ts K : List ScheduleTree} (h : Placed body pc (emitAll cx n ts).1)
    (hK : (emitAll cx n ts).2.terminated = false →
      Impl cx body (pc + (emitAll cx n ts).1.length) K) : Impl cx body pc (ts ++ K) := by
  induction ts generalizing n pc with
  | nil => exact hK rfl
  | cons t ts ih =>
    rw [emitAll] at h hK
    dsimp only at h hK
    cases hterm : (emitSched cx n t).2.terminated with
    | true =>
      rw [if_pos hterm] at h
      exact .code h fun hopen => absurd (hopen.symm.trans hterm) Bool.false_ne_true
    | false =>
      rw [if_neg (by rw [hterm]; exact Bool.false_ne_true)] at h hK
      obtain ⟨hhead, htail⟩ := placed_append.mp h
      refine .code hhead fun _ => ih htail fun hopen => ?_
      have himpl := hK hopen
      rwa [List.length_append, ← Nat.add_assoc] at himpl

mutual

/-- The steps of a reading that print nothing. -/
def weight : ScheduleTree → Nat
  | .seq ts => weightAll ts + 1
  | .par ts => weightAll ts + 1
  | _ => 1

def weightAll : List ScheduleTree → Nat
  | [] => 0
  | t :: ts => weight t + weightAll ts

end

theorem weightAll_append (ts K : List ScheduleTree) :
    weightAll (ts ++ K) = weightAll ts + weightAll K := by
  induction ts with
  | nil => simp [weightAll]
  | cons t ts ih => rw [List.cons_append, weightAll, weightAll, ih, Nat.add_assoc]

variable {ω : Nat → Bool}

theorem execStep_br (hnodup : (labels body).Nodup) {pc q k : Nat} {l : Label}
    (h : body[pc]? = some (.br l)) (hq : body[q]? = some (.label l)) :
    execStep body ω (pc, k) = some (none, q + 1, k) := by
  simp only [execStep, h, target_eq hnodup hq, Option.map_some]

theorem Impl.of_transfer {pc n k : Nat} {pool : Option String} {K : List ScheduleTree}
    (h : Placed body pc (emitTransfer cx pool n).1)
    (hK : (emitTransfer cx pool n).2.terminated = false →
      Impl cx body (pc + (emitTransfer cx pool n).1.length) K) :
    (∃ pc', Steps (execStep body ω) 1 (pc, k) [] (pc', k) ∧ Impl cx body pc' K) ∨ Impl cx body pc K := by
  unfold emitTransfer at h hK
  split at h
  · next hsome =>
    rw [if_pos hsome] at hK
    have hline : body[pc]? = some (.transfer pool) := h.1
    refine .inl ⟨pc + 1, Steps.one (e := none) ?_, hK rfl⟩
    simp only [execStep, hline]
  · next hnone =>
    rw [if_neg hnone] at hK
    exact .inr (hK rfl)

theorem Impl.moves (hnodup : (labels body).Nodup) {pc k k' : Nat} {K K' : List ScheduleTree}
    {e : Option String} (h : Impl cx body pc K) (hstep : readStep ω (K, k) = some (e, K', k')) :
    (∃ n pc', Steps (execStep body ω) (n + 1) (pc, k) e.toList (pc', k') ∧ Impl cx body pc' K') ∨
      (e = none ∧ k' = k ∧ Impl cx body pc K' ∧ weightAll K' < weightAll K) := by
  induction h with
  | done h => cases hstep
  | @code pc n t K h hK ih =>
    cases t with
    | run sym =>
      obtain ⟨rfl, rfl, rfl⟩ := by simpa only [readStep, Option.some.injEq, Prod.mk.injEq] using hstep
      have hline : body[pc]? = some (.run sym) := h.1
      refine .inl ⟨0, pc + 1, Steps.one ?_, hK rfl⟩
      simp only [execStep, hline]
    | halt => cases hstep
    | gpuSync pool =>
      obtain ⟨rfl, rfl, rfl⟩ := by simpa only [readStep, Option.some.injEq, Prod.mk.injEq] using hstep
      rcases Impl.of_transfer h hK with ⟨pc', hone, himpl⟩ | himpl
      · exact .inl ⟨0, pc', hone, himpl⟩
      · exact .inr ⟨rfl, rfl, himpl, Nat.lt_add_of_pos_left Nat.one_pos⟩
    | gpuUpload pool =>
      obtain ⟨rfl, rfl, rfl⟩ := by simpa only [readStep, Option.some.injEq, Prod.mk.injEq] using hstep
      rcases Impl.of_transfer h hK with ⟨pc', hone, himpl⟩ | himpl
      · exact .inl ⟨0, pc', hone, himpl⟩
      · exact .inr ⟨rfl, rfl, himpl, Nat.lt_add_of_pos_left Nat.one_pos⟩
    | seq ts =>
      obtain ⟨rfl, rfl, rfl⟩ := by simpa only [readStep, Option.some.injEq, Prod.mk.injEq] using hstep
      refine .inr ⟨rfl, rfl, Impl.all h hK, ?_⟩
      rw [weightAll_append, weightAll, weight]
      omega
    | par ts =>
      obtain ⟨rfl, rfl, rfl⟩ := by simpa only [readStep, Option.some.injEq, Prod.mk.injEq] using hstep
      refine .inr ⟨rfl, rfl, Impl.all h hK, ?_⟩
      rw [weightAll_append, weightAll, weight]
      omega
    | loop t =>
      obtain ⟨rfl, rfl, rfl⟩ := by simpa only [readStep, Option.some.injEq, Prod.mk.injEq] using hstep
      rw [emitSched] at h
      dsimp only at h
      obtain ⟨hfront, hend⟩ := placed_append.mp h
      obtain ⟨⟨hbr, hlabel, -⟩, hbody⟩ := placed_append.mp hfront
      have hback : (emitSched cx (n + 1) t).2.terminated = false →
          body[pc + 1 + 1 + (emitSched cx (n + 1) t).1.length]? = some (.br (.sched n)) := by
        intro hopen
        rw [if_neg (by rw [hopen]; exact Bool.false_ne_true)] at hend
        have hline := hend.1
        rwa [List.length_append, ← Nat.add_assoc] at hline
      refine .inl ⟨0, pc + 2, Steps.one (execStep_br hnodup hbr hlabel), .code hbody fun hopen => ?_⟩
      exact .back (hback hopen) hlabel hbody hback
    | whenT p t =>
      obtain ⟨rfl, rfl, rfl⟩ := by simpa only [readStep, Option.some.injEq, Prod.mk.injEq] using hstep
      have hafter := hK rfl
      rw [emitSched] at h hafter
      dsimp only at h hafter
      obtain ⟨hfront, helse, -⟩ := placed_append.mp h
      obtain ⟨hfront, hend⟩ := placed_append.mp hfront
      obtain ⟨⟨hbr, hthen, -⟩, hbody⟩ := placed_append.mp hfront
      rw [List.length_append, ← Nat.add_assoc] at hafter
      refine .inl ⟨0, ?_⟩
      cases hω : ω k with
      | true =>
        refine ⟨pc + 2, Steps.one ?_, .code hbody fun hopen => ?_⟩
        · simp only [execStep, hbr, hω, if_true, target_eq hnodup hthen, Option.map_some]
        · -- the body falls off its end and goes on behind the `when`
          rw [if_neg (by rw [hopen]; exact Bool.false_ne_true)] at hend
          have hline := hend.1
          rw [List.length_append, ← Nat.add_assoc] at hline
          exact .goto hline helse hafter
      | false =>
        refine ⟨_, Steps.one ?_, hafter⟩
        simp only [execStep, hbr, hω, Bool.false_eq_true, if_false, target_eq hnodup helse,
          Option.map_some, List.length_singleton]
  | @back pc q n id t K h hq hbody hend =>
    obtain ⟨rfl, rfl, rfl⟩ := by simpa only [readStep, Option.some.injEq, Prod.mk.injEq] using hstep
    refine .inl ⟨0, q + 1, Steps.one (execStep_br hnodup h hq), .code hbody fun hopen => ?_⟩
    exact .back (hend hopen) hq hbody hend
  | @goto pc q l K h hq hK ih =>
    rcases ih hstep with ⟨m, pc', hm, himpl⟩ | ⟨rfl, rfl, himpl, -⟩
    · exact .inl ⟨m + 1, pc', .silent_cons (execStep_br hnodup h hq) hm, himpl⟩
    · exact .inl ⟨0, q + 1, Steps.one (execStep_br hnodup h hq), himpl⟩

theorem Impl.ended (hnodup : (labels body).Nodup) {pc k : Nat} {K : List ScheduleTree}
    (h : Impl cx body pc K) (hstep : readStep ω (K, k) = none) :
    ∃ n pc', Steps (execStep body ω) n (pc, k) [] (pc', k) ∧ execStep body ω (pc', k) = none ∧
      Impl cx body pc' K := by
  induction h with
  | @done pc h =>
    refine ⟨0, pc, .refl _, ?_, .done h⟩
    simp only [execStep, h]
  | @code pc n t K h hK ih =>
    cases t with
    | halt =>
      have hline : body[pc]? = some .ret := h.1
      refine ⟨0, pc, .refl _, ?_, .code h hK⟩
      simp only [execStep, hline]
    | run | gpuSync | gpuUpload | seq | par | loop | whenT => cases hstep
  | back h hq hbody hend => cases hstep
  | @goto pc q l K h hq hK ih =>
    obtain ⟨m, pc', hm, hend, himpl⟩ := ih hstep
    exact ⟨m + 1, pc', .silent_cons (execStep_br hnodup h hq) hm, hend, himpl⟩

end

/-- The printed function follows the reading of the schedule. -/
theorem readStep_lockstep {body : List Line} (hnodup : (labels body).Nodup) (ω : Nat → Bool) :
    Lockstep (readStep ω) (execStep body ω) (fun s t => Impl cx body t.1 s.1 ∧ s.2 = t.2)
      fun s => weightAll s.1 where
  ended := by
    rintro ⟨K, k⟩ ⟨pc, k'⟩ ⟨h, rfl⟩ hstep
    obtain ⟨n, pc', hn, hend, himpl⟩ := h.ended hnodup hstep
    exact ⟨n, (pc', k), hn, hend, himpl, rfl⟩
  moves := by
    rintro ⟨K, k⟩ ⟨pc, k'⟩ e ⟨K', k''⟩ ⟨h, rfl⟩ hstep
    rcases h.moves hnodup hstep with ⟨n, pc', hn, himpl⟩ | ⟨rfl, rfl, himpl, hlt⟩
    · exact .inl ⟨n, (pc', k''), hn, himpl, rfl⟩
    · exact .inr ⟨rfl, ⟨himpl, rfl⟩, hlt⟩

theorem impl_codegenSchedFn (t : ScheduleTree) : Impl cx (codegenSchedFn cx t) 1 [t] := by
  have hplaced : Placed (codegenSchedFn cx t) 1 ((emitSched cx 0 t).1 ++
      if (emitSched cx 0 t).2.terminated then [] else [.ret]) := by
    have h := placed_mid [.label .entry] ((emitSched cx 0 t).1 ++
      if (emitSched cx 0 t).2.terminated then [] else [.ret]) []
    rwa [List.append_nil] at h
  obtain ⟨hcode, hend⟩ := placed_append.mp hplaced
  refine .code hcode fun hopen => .done ?_
  rw [if_neg (by rw [hopen]; exact Bool.false_ne_true)] at hend
  exact hend.1

/-- The function printed for a schedule is made of basic blocks, each with one terminator, and for
all outcomes of the predicates it runs the kernels the schedule runs: it shows the same kernels at
every stage, and it ends if and only if the schedule ends. -/
theorem emitSched_runs (cx : Ctx) (t : ScheduleTree) :
    WellFormed (codegenSchedFn cx t) ∧
      ∀ (ω : Nat → Bool) (us : List String),
        (Shows (readStep ω) ([t], 0) us ↔ Shows (execStep (codegenSchedFn cx t) ω) (1, 0) us) ∧
        (Ends (readStep ω) ([t], 0) us ↔ Ends (execStep (codegenSchedFn cx t) ω) (1, 0) us) := by
  have hwf := emitSched_wellFormed cx t
  refine ⟨hwf, fun ω us => ?_⟩
  have hlock := readStep_lockstep cx hwf.nodup_labels ω
  exact ⟨hlock.shows_iff ⟨impl_codegenSchedFn cx t, rfl⟩, hlock.ends_iff ⟨impl_codegenSchedFn cx t, rfl⟩⟩

end Arche.Codegen.EmitSched
