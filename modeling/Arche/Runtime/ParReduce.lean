import Mathlib.Data.Finset.Card
import Arche.Lib.Run
import Arche.Codegen.ColumnFold

/-!
# `arche_par_reduce` and its threads

The runtime cuts a column into `k` chunks and starts a thread for each. A chunk whose
`pthread_create` fails is folded in place. `spawned` counts the threads, and the first
`spawned` entries of `th` are joined, whichever they are.

* A worker writes its partial in one step, at any time after it was created.
* `out t` is `none` before `args[t].out` is written, and a read may then give any value.
* To join an entry of `th` that is no thread leads to `lost`, from where nothing is known.

1. `correct_iff`: the call is right in every interleaving exactly if no creation succeeds after
   one that failed.
2. `not_correct`: the first of two creations fails.
-/

namespace Arche.Runtime.ParReduce

open Arche.Lib
open Arche.Codegen

/-! ## The call -/

/-- The integer instances of `PR_GEN`. -/
inductive PrName
  | i32
  | i64

def PrName.word : PrName → Word
  | i32 => ⟨32, true⟩
  | i64 => ⟨64, true⟩

/-- A call of `arche_par_reduce`, with what the system answers: the number of processors and
which `pthread_create` succeeds. -/
structure Call where
  name : PrName
  op : FoldOp
  col : Nat → Int
  n : Int
  ncpu : Nat
  creates : Nat → Bool

namespace Call

variable (c : Call)

/-- One pass of the loop of `NAME##_fold`, and of the combining loop. -/
def combine : Int → Int → Int := emitMonoidCombine c.name.word c.op

/-- `NAME##_fold` -/
def fold (lo hi : Nat) : Int := foldRange c.combine (prIdentity c.name.word c.op) c.col lo hi

def k : Nat := prNthreads c.ncpu c.n.toNat

def chunk : Nat := c.n.toNat / c.k

/-- `args[t].lo` -/
def lo (t : Nat) : Nat := t * c.chunk

/-- `args[t].hi` -/
def hi (t : Nat) : Nat := chunkEnd c.n.toNat c.k t

def chunkFold (t : Nat) : Int := c.fold (c.lo t) (c.hi t)

end Call

/-- Where the caller's thread is: `create`, `join` and `combine` are the heads of the three
loops. -/
inductive Pc
  | create (t : Nat)
  | join (t : Nat)
  | combine (t : Nat) (acc : Int)
  | returned (result : Int)
  | lost

/-- `combined` are the chunks whose partials were read, in order. -/
structure State where
  pc : Pc
  spawned : Nat
  thread : Nat → Bool
  finished : Nat → Bool
  out : Nat → Option Int
  combined : List Nat

def Call.start (c : Call) : State where
  pc :=
    if c.n ≤ 0 then .returned (prIdentity c.name.word c.op)
    else if c.k ≤ 1 then .returned (c.fold 0 c.n.toNat)
    else .create 0
  spawned := 0
  thread := fun _ => false
  finished := fun _ => false
  out := fun _ => none
  combined := []

/-- What a read of `args[t].out` may give. -/
def State.Reads (s : State) (t : Nat) (v : Int) : Prop := ∀ x, s.out t = some x → v = x

inductive Actor
  | main
  | worker (t : Nat)

inductive Step (c : Call) : State → Actor → State → Prop
  | spawn {s t} : s.pc = .create t → t < c.k → c.creates t = true →
      Step c s .main { s with
        pc := .create (t + 1), spawned := s.spawned + 1, thread := Function.update s.thread t true }
  | inPlace {s t} : s.pc = .create t → t < c.k → c.creates t = false →
      Step c s .main { s with
        pc := .create (t + 1), out := Function.update s.out t (some (c.chunkFold t)) }
  | created {s} : s.pc = .create c.k → Step c s .main { s with pc := .join 0 }
  | join {s t} : s.pc = .join t → t < s.spawned → s.thread t = true → s.finished t = true →
      Step c s .main { s with pc := .join (t + 1) }
  | joinUnknown {s t} : s.pc = .join t → t < s.spawned → s.thread t = false →
      Step c s .main { s with pc := .lost }
  | first {s v} : s.pc = .join s.spawned → s.Reads 0 v →
      Step c s .main { s with pc := .combine 1 v, combined := [0] }
  | combine {s t acc v} : s.pc = .combine t acc → t < c.k → s.Reads t v →
      Step c s .main { s with
        pc := .combine (t + 1) (c.combine acc v), combined := s.combined ++ [t] }
  | finish {s acc} : s.pc = .combine c.k acc → Step c s .main { s with pc := .returned acc }
  | work {s t} : s.thread t = true → s.finished t = false →
      Step c s (.worker t) { s with
        finished := Function.update s.finished t true,
        out := Function.update s.out t (some (c.chunkFold t)) }

/-! ## What is expected of it -/

/-- The chunk whose partial is read next. -/
def State.reading (s : State) (k : Nat) : Option Nat :=
  match s.pc with
  | .join t => if t = s.spawned then some 0 else none
  | .combine t _ => if t < k then some t else none
  | _ => none

/-- In every interleaving. -/
structure Correct (c : Call) : Prop where
  partition : ∀ i, i < c.n.toNat → ∃! t, t < c.k ∧ c.lo t ≤ i ∧ i < c.hi t
  within : ∀ t, t < c.k → c.lo t ≤ c.hi t ∧ c.hi t ≤ c.n.toNat
  joins : ∀ as s t, Run (Step c) c.start as s → s.pc = .join t → t < s.spawned → s.thread t = true
  waits : ∀ as s t, Run (Step c) c.start as s → s.reading c.k = some t → s.thread t = true →
    s.finished t = true
  combines : ∀ as s r, Run (Step c) c.start as s → s.pc = .returned r → 1 < c.k →
    s.combined = List.range c.k
  result : ∀ as s r, Run (Step c) c.start as s → s.pc = .returned r → r = c.fold 0 c.n.toNat
  progress : ∀ as s, Run (Step c) c.start as s → (∃ r, s.pc = .returned r) ∨ ∃ a s', Step c s a s'
  bounded : ∀ as s, Run (Step c) c.start as s → as.length ≤ 4 * c.k + 3

/-- The condition. -/
def CreatesFirst (c : Call) : Prop :=
  ∀ t u, t < u → u < c.k → c.creates u = true → c.creates t = true

/-! ## The chunks -/

section Chunks

variable {c : Call}

theorem one_le_k (c : Call) : 1 ≤ c.k := Nat.le_max_left _ _

theorem k_of_nonpos (h : c.n ≤ 0) : c.k = 1 := by
  unfold Call.k prNthreads
  dsimp only
  rw [Int.toNat_of_nonpos h]
  omega

theorem chunk_within {t : Nat} (ht : t < c.k) : c.lo t ≤ c.hi t ∧ c.hi t ≤ c.n.toNat := by
  have hmul : c.k * (c.n.toNat / c.k) ≤ c.n.toNat := Nat.mul_div_le _ _
  unfold Call.lo Call.hi Call.chunk chunkEnd
  split
  · exact ⟨Nat.le_trans (Nat.mul_le_mul_right _ (Nat.le_of_lt ht)) hmul, Nat.le_refl _⟩
  · exact ⟨Nat.mul_le_mul_right _ (Nat.le_succ t),
      Nat.le_trans (Nat.mul_le_mul_right _ (Nat.succ_le_of_lt ht)) hmul⟩

theorem combine_eq (c : Call) : c.combine = c.op.combine c.name.word :=
  FoldLemmas.emitMonoidCombine_eq (.inr (.inr (by cases c.name <;> rfl)))

theorem combine_prIdentity (c : Call) :
    c.op.combine c.name.word (prIdentity c.name.word c.op) (prIdentity c.name.word c.op) =
      prIdentity c.name.word c.op := by
  unfold prIdentity
  cases c.op with
  | add => exact c.name.word.wrap_add 0 0
  | mul => exact c.name.word.wrap_mul 1 1
  | min => exact min_self _
  | max => exact max_self _

/-- The partials of the chunks below `t`, combined. -/
def Call.combinedFold (c : Call) (t : Nat) : Int :=
  ((List.range' 1 (t - 1)).map c.chunkFold).foldl c.combine (c.chunkFold 0)

theorem combinedFold_succ {t : Nat} (ht : 1 ≤ t) :
    c.combinedFold (t + 1) = c.combine (c.combinedFold t) (c.chunkFold t) := by
  unfold Call.combinedFold
  have hlen : t + 1 - 1 = (t - 1) + 1 := by omega
  have hlast : 1 + 1 * (t - 1) = t := by omega
  rw [hlen, List.range'_concat, hlast, List.map_append, List.foldl_append]
  rfl

/-- The chunks come to the serial fold. -/
theorem combinedFold_all (c : Call) : c.combinedFold c.k = c.fold 0 c.n.toNat := by
  have hserial : c.fold 0 c.n.toNat = ((List.range c.n.toNat).map c.col).foldl
      (c.op.combine c.name.word) (prIdentity c.name.word c.op) := by
    rw [Call.fold, foldRange, Nat.sub_zero, ← List.range_eq_range', combine_eq]
  rw [hserial, ← chunked_eq (combine_prIdentity c) c.col c.n.toNat (one_le_k c)]
  unfold Call.combinedFold Call.chunkFold Call.fold
  rw [combine_eq]
  rfl

end Chunks

/-! ## Invariants -/

/-- How many creations lie behind. -/
def Pc.passed (k : Nat) : Pc → Nat
  | create t => t
  | join _ | combine _ _ | returned _ | lost => k

/-- How many joins lie behind. -/
def Pc.joined (spawned : Nat) : Pc → Nat
  | create _ | lost => 0
  | join t => t
  | combine _ _ | returned _ => spawned

/-- What holds in every interleaving, whatever fails. -/
structure Inv (c : Call) (s : State) : Prop where
  passed : s.pc.passed c.k ≤ c.k
  thread : ∀ t, s.thread t = true ↔ t < s.pc.passed c.k ∧ c.creates t = true
  spawned : s.spawned = (List.range (s.pc.passed c.k)).countP c.creates
  joined : s.pc.joined s.spawned ≤ s.spawned
  waited : ∀ t, t < s.pc.joined s.spawned → s.finished t = true
  finished : ∀ t, s.finished t = true → s.thread t = true
  folded : ∀ t, t < s.pc.passed c.k → c.creates t = false → s.out t = some (c.chunkFold t)
  worked : ∀ t, s.finished t = true → s.out t = some (c.chunkFold t)

section Runs

variable {c : Call} {s s' : State} {a : Actor} {as : List Actor}

theorem start_serial (h : c.k ≤ 1) : c.start.pc = .returned (c.fold 0 c.n.toNat) := by
  unfold Call.start
  dsimp only
  split
  · next hneg =>
    rw [Int.toNat_of_nonpos hneg]
    rfl
  · rfl

theorem start_threaded (h : 1 < c.k) : c.start.pc = .create 0 := by
  have hpos : ¬ c.n ≤ 0 := fun hneg => absurd (k_of_nonpos hneg) (Nat.ne_of_gt h)
  unfold Call.start
  dsimp only
  rw [if_neg hpos, if_neg (Nat.not_le_of_lt h)]

/-- Without threads the call returns at once. -/
theorem run_serial (h : c.k ≤ 1) (hrun : Run (Step c) c.start as s) : as = [] ∧ s = c.start := by
  induction hrun with
  | nil => exact ⟨rfl, rfl⟩
  | snoc _ hstep ih =>
    obtain ⟨-, rfl⟩ := ih
    have hpc := start_serial h
    cases hstep with
    | spawn hat | inPlace hat | created hat | join hat | joinUnknown hat | first hat | combine hat
      | finish hat => cases hpc.symm.trans hat
    | work hthread => cases hthread

theorem inv_start (h : 1 < c.k) : Inv c c.start := by
  have hpc := start_threaded h
  have hpassed : c.start.pc.passed c.k = 0 := by rw [hpc]; rfl
  have hjoined : c.start.pc.joined c.start.spawned = 0 := by rw [hpc]; rfl
  refine ⟨?_, fun t => ?_, ?_, ?_, fun t ht => ?_, fun t ht => ?_, fun t ht => ?_, fun t ht => ?_⟩
  · omega
  · rw [hpassed]
    exact ⟨fun ht => (Bool.false_ne_true ht).elim, fun ht => absurd ht.1 (Nat.not_lt_zero t)⟩
  · rw [hpassed]
    rfl
  · omega
  · omega
  · exact (Bool.false_ne_true ht).elim
  · omega
  · exact (Bool.false_ne_true ht).elim

/-- A step that only moves on. -/
theorem Inv.move (h : Inv c s) {pc : Pc} (combined : List Nat)
    (hpassed : pc.passed c.k = s.pc.passed c.k)
    (hjoined : pc.joined s.spawned ≤ s.pc.joined s.spawned) :
    Inv c { s with pc := pc, combined := combined } where
  passed := hpassed ▸ h.passed
  thread := hpassed ▸ h.thread
  spawned := hpassed ▸ h.spawned
  joined := Nat.le_trans hjoined h.joined
  waited t ht := h.waited t (Nat.lt_of_lt_of_le ht hjoined)
  finished := h.finished
  folded := hpassed ▸ h.folded
  worked := h.worked

theorem Inv.spawn (h : Inv c s) {t : Nat} (hpc : s.pc = .create t) (ht : t < c.k)
    (hok : c.creates t = true) :
    Inv c { s with
      pc := .create (t + 1), spawned := s.spawned + 1,
      thread := Function.update s.thread t true } := by
  obtain ⟨-, hthread, hspawned, -, -, hfinished, hfolded, hworked⟩ := h
  rw [hpc] at hthread hspawned hfolded
  refine ⟨ht, fun u => ?_, ?_, Nat.zero_le _, fun u hu => absurd hu (Nat.not_lt_zero u),
    fun u hu => ?_, fun u hu hfail => ?_, hworked⟩
  · show Function.update s.thread t true u = true ↔ u < t + 1 ∧ c.creates u = true
    by_cases hut : u = t
    · rw [hut, Function.update_self]
      exact ⟨fun _ => ⟨Nat.lt_succ_self t, hok⟩, fun _ => rfl⟩
    · rw [Function.update_of_ne hut, hthread]
      exact and_congr_left fun _ => ⟨fun hu => Nat.lt_succ_of_lt hu, fun hu => by
        exact Nat.lt_of_le_of_ne (Nat.le_of_lt_succ hu) hut⟩
  · show s.spawned + 1 = (List.range (t + 1)).countP c.creates
    rw [List.range_succ, List.countP_append, List.countP_singleton, if_pos hok, hspawned]
    rfl
  · have hold := hfinished u hu
    show Function.update s.thread t true u = true
    by_cases hut : u = t
    · rw [hut, Function.update_self]
    · rw [Function.update_of_ne hut]
      exact hold
  · refine hfolded u (Nat.lt_of_le_of_ne (Nat.le_of_lt_succ hu) ?_) hfail
    rintro rfl
    rw [hok] at hfail
    cases hfail

theorem update_out {out : Nat → Option Int} {t u : Nat}
    (h : u ≠ t → out u = some (c.chunkFold u)) :
    Function.update out t (some (c.chunkFold t)) u = some (c.chunkFold u) := by
  by_cases hut : u = t
  · rw [hut, Function.update_self]
  · rw [Function.update_of_ne hut]
    exact h hut

theorem Inv.inPlace (h : Inv c s) {t : Nat} (hpc : s.pc = .create t) (ht : t < c.k)
    (hfail : c.creates t = false) :
    Inv c { s with
      pc := .create (t + 1), out := Function.update s.out t (some (c.chunkFold t)) } := by
  obtain ⟨-, hthread, hspawned, -, -, hfinished, hfolded, hworked⟩ := h
  rw [hpc] at hthread hspawned hfolded
  refine ⟨ht, fun u => ?_, ?_, Nat.zero_le _, fun u hu => absurd hu (Nat.not_lt_zero u),
    hfinished, fun u hu hfail' => ?_, fun u hu => update_out fun _ => hworked u hu⟩
  · rw [hthread]
    refine and_congr_left fun hok => ⟨fun hu => Nat.lt_succ_of_lt hu, fun hu => ?_⟩
    refine Nat.lt_of_le_of_ne (Nat.le_of_lt_succ hu) ?_
    rintro rfl
    rw [hok] at hfail
    cases hfail
  · show s.spawned = (List.range (t + 1)).countP c.creates
    rw [List.range_succ, List.countP_append, List.countP_singleton, hfail, hspawned]
    rfl
  · exact update_out fun hut =>
      hfolded u (Nat.lt_of_le_of_ne (Nat.le_of_lt_succ hu) hut) hfail'

theorem Inv.join (h : Inv c s) {t : Nat} (hpc : s.pc = .join t) (ht : t < s.spawned)
    (hdone : s.finished t = true) : Inv c { s with pc := .join (t + 1) } := by
  obtain ⟨-, hthread, hspawned, -, hwaited, hfinished, hfolded, hworked⟩ := h
  rw [hpc] at hthread hspawned hwaited hfolded
  refine ⟨Nat.le_refl _, hthread, hspawned, ht, fun u hu => ?_, hfinished, hfolded, hworked⟩
  rcases Nat.lt_succ_iff_lt_or_eq.mp hu with hu | rfl
  · exact hwaited u hu
  · exact hdone

theorem Inv.work (h : Inv c s) {t : Nat} (hthread : s.thread t = true) :
    Inv c { s with
      finished := Function.update s.finished t true,
      out := Function.update s.out t (some (c.chunkFold t)) } := by
  have hother : ∀ u, u ≠ t → Function.update s.finished t true u = s.finished u :=
    fun u hut => Function.update_of_ne hut _ _
  refine ⟨h.passed, h.thread, h.spawned, h.joined, fun u hu => ?_, fun u hu => ?_,
    fun u hu hfail => update_out fun _ => h.folded u hu hfail,
    fun u hu => update_out fun hut => h.worked u (hother u hut ▸ hu)⟩
  · show Function.update s.finished t true u = true
    by_cases hut : u = t
    · rw [hut, Function.update_self]
    · rw [hother u hut]
      exact h.waited u hu
  · by_cases hut : u = t
    · rw [hut]
      exact hthread
    · exact h.finished u (hother u hut ▸ hu)

theorem inv_step (h : Inv c s) (hstep : Step c s a s') : Inv c s' := by
  cases hstep with
  | spawn hpc ht hok => exact h.spawn hpc ht hok
  | inPlace hpc ht hfail => exact h.inPlace hpc ht hfail
  | created hpc => exact h.move _ (by rw [hpc]; rfl) (Nat.zero_le _)
  | join hpc ht _ hdone => exact h.join hpc ht hdone
  | joinUnknown hpc => exact h.move _ (by rw [hpc]; rfl) (Nat.zero_le _)
  | first hpc => exact h.move _ (by rw [hpc]; rfl) (by rw [hpc]; exact Nat.le_refl _)
  | combine hpc => exact h.move _ (by rw [hpc]; rfl) (by rw [hpc]; exact Nat.le_refl _)
  | finish hpc => exact h.move _ (by rw [hpc]; rfl) (by rw [hpc]; exact Nat.le_refl _)
  | work hthread => exact h.work hthread

theorem inv_run (h : 1 < c.k) (hrun : Run (Step c) c.start as s) : Inv c s :=
  Run.inv (Inv c) (inv_start h) (fun _ _ _ hi hstep => inv_step hi hstep) hrun

/-! ## Creations that fail last -/

theorem lt_count_iff (hc : CreatesFirst c) {m t : Nat} (hm : m ≤ c.k) :
    t < (List.range m).countP c.creates ↔ t < m ∧ c.creates t = true := by
  induction m with
  | zero => exact ⟨fun h => absurd h (Nat.not_lt_zero t), fun h => h.1⟩
  | succ m ih =>
    rw [List.range_succ, List.countP_append, List.countP_singleton]
    cases hok : c.creates m with
    | true =>
      have hall : (List.range m).countP c.creates = m := by
        have hlen := List.countP_eq_length.mpr fun t ht => hc t m (List.mem_range.mp ht) hm hok
        rwa [List.length_range] at hlen
      rw [hall, if_pos rfl]
      refine ⟨fun ht => ⟨ht, ?_⟩, fun h => h.1⟩
      rcases Nat.lt_succ_iff_lt_or_eq.mp ht with ht | rfl
      · exact hc t m ht hm hok
      · exact hok
    | false =>
      rw [if_neg Bool.false_ne_true, Nat.add_zero, ih (Nat.le_of_succ_le hm)]
      refine and_congr_left fun ht => ⟨fun hlt => Nat.lt_succ_of_lt hlt, fun hlt => ?_⟩
      refine Nat.lt_of_le_of_ne (Nat.le_of_lt_succ hlt) ?_
      rintro rfl
      rw [hok] at ht
      cases ht

theorem Inv.thread_of_lt (h : Inv c s) (hc : CreatesFirst c) (hpassed : s.pc.passed c.k = c.k)
    {t : Nat} (ht : t < s.spawned) : s.thread t = true := by
  have hspawned := h.spawned
  have hthread := h.thread t
  rw [hpassed] at hspawned hthread
  rw [hspawned, lt_count_iff hc (Nat.le_refl _)] at ht
  exact hthread.mpr ht

/-- After the last join. -/
theorem Inv.ready (h : Inv c s) (hc : CreatesFirst c) (hpassed : s.pc.passed c.k = c.k)
    (hjoined : s.pc.joined s.spawned = s.spawned) {t : Nat} (ht : t < c.k) :
    s.out t = some (c.chunkFold t) ∧ (s.thread t = true → s.finished t = true) := by
  have hspawned := h.spawned
  have hthread := h.thread t
  rw [hpassed] at hspawned hthread
  have hdone : c.creates t = true → s.finished t = true := by
    intro hok
    refine h.waited t ?_
    rw [hjoined, hspawned, lt_count_iff hc (Nat.le_refl _)]
    exact ⟨ht, hok⟩
  refine ⟨?_, fun hcreated => hdone (hthread.mp hcreated).2⟩
  cases hok : c.creates t with
  | true => exact h.worked t (hdone hok)
  | false => exact h.folded t (hpassed.symm ▸ ht) hok

/-- What the caller's thread has combined so far. -/
structure Combining (c : Call) (s : State) : Prop where
  alive : s.pc ≠ .lost
  combining : ∀ t acc, s.pc = .combine t acc →
    1 ≤ t ∧ t ≤ c.k ∧ acc = c.combinedFold t ∧ s.combined = List.range t
  returned : ∀ r, s.pc = .returned r → r = c.combinedFold c.k ∧ s.combined = List.range c.k

/-- Outside of the combining loop nothing has been combined. -/
theorem combining_of {s : State} (halive : s.pc ≠ .lost) (hcombine : ∀ t acc, s.pc ≠ .combine t acc)
    (hreturned : ∀ r, s.pc ≠ .returned r) : Combining c s :=
  ⟨halive, fun t acc h => absurd h (hcombine t acc), fun r h => absurd h (hreturned r)⟩

theorem combining_step (hc : CreatesFirst c) (hi : Inv c s) (h : Combining c s)
    (hstep : Step c s a s') : Combining c s' := by
  cases hstep with
  | spawn | inPlace | created | join => exact combining_of nofun nofun nofun
  | joinUnknown hpc ht hnone =>
    have hcreated := hi.thread_of_lt hc (by rw [hpc]; rfl) ht
    rw [hnone] at hcreated
    cases hcreated
  | first hpc hread =>
    have hready := hi.ready hc (by rw [hpc]; rfl) (by rw [hpc]; rfl) (one_le_k c)
    refine ⟨nofun, fun t acc heq => ?_, nofun⟩
    cases heq
    exact ⟨Nat.le_refl 1, one_le_k c, hread _ hready.1, rfl⟩
  | combine hpc ht hread =>
    obtain ⟨hpos, -, rfl, hcombined⟩ := h.combining _ _ hpc
    have hready := hi.ready hc (by rw [hpc]; rfl) (by rw [hpc]; rfl) ht
    refine ⟨nofun, fun u acc heq => ?_, nofun⟩
    cases heq
    refine ⟨Nat.succ_pos _, ht, ?_, ?_⟩
    · rw [hread _ hready.1, combinedFold_succ hpos]
    · show s.combined ++ [_] = _
      rw [hcombined, List.range_succ]
  | finish hpc =>
    obtain ⟨-, -, rfl, hcombined⟩ := h.combining _ _ hpc
    refine ⟨nofun, nofun, fun r heq => ?_⟩
    cases heq
    exact ⟨rfl, hcombined⟩
  | work => exact ⟨h.alive, h.combining, h.returned⟩

theorem combining_run (h : 1 < c.k) (hc : CreatesFirst c) (hrun : Run (Step c) c.start as s) :
    Combining c s := by
  refine (Run.inv (fun s => Inv c s ∧ Combining c s) ⟨inv_start h, ?_⟩ ?_ hrun).2
  · have hpc := start_threaded h
    exact combining_of (hpc ▸ nofun) (hpc ▸ nofun) (hpc ▸ nofun)
  · rintro s a s' ⟨hi, hcombining⟩ hstep
    exact ⟨inv_step hi hstep, combining_step hc hi hcombining hstep⟩

theorem can_step (hi : Inv c s) (h : Combining c s) :
    (∃ r, s.pc = .returned r) ∨ ∃ a s', Step c s a s' := by
  have hread : ∀ t, ∃ v, s.Reads t v := by
    intro t
    refine ⟨(s.out t).getD 0, fun x hx => ?_⟩
    rw [hx]
    rfl
  have hpassed := hi.passed
  have hjoined := hi.joined
  cases hpc : s.pc with
  | create t =>
    rw [hpc] at hpassed
    rcases Nat.lt_or_eq_of_le hpassed with ht | rfl
    · cases hok : c.creates t with
      | true => exact .inr ⟨_, _, .spawn hpc ht hok⟩
      | false => exact .inr ⟨_, _, .inPlace hpc ht hok⟩
    · exact .inr ⟨_, _, .created hpc⟩
  | join t =>
    rw [hpc] at hjoined
    rcases Nat.lt_or_eq_of_le hjoined with ht | rfl
    · cases hthread : s.thread t with
      | false => exact .inr ⟨_, _, .joinUnknown hpc ht hthread⟩
      | true =>
        cases hdone : s.finished t with
        | true => exact .inr ⟨_, _, .join hpc ht hthread hdone⟩
        | false => exact .inr ⟨_, _, .work hthread hdone⟩
    · obtain ⟨v, hv⟩ := hread 0
      exact .inr ⟨_, _, .first hpc hv⟩
  | combine t acc =>
    obtain ⟨-, hle, -, -⟩ := h.combining _ _ hpc
    rcases Nat.lt_or_eq_of_le hle with ht | rfl
    · obtain ⟨v, hv⟩ := hread t
      exact .inr ⟨_, _, .combine hpc ht hv⟩
    · exact .inr ⟨_, _, .finish hpc⟩
  | returned r => exact .inl ⟨r, rfl⟩
  | lost => exact absurd hpc h.alive

/-! ## Every run ends -/

/-- How many steps of the caller's thread there can be. -/
def Pc.rank (k spawned : Nat) : Pc → Nat
  | create t => 2 * k + 3 + (k - t)
  | join t => k + 2 + (spawned - t)
  | combine t _ => 1 + (k - t)
  | returned _ | lost => 0

/-- The chunks no worker has folded. -/
def State.unfinished (s : State) (k : Nat) : Finset Nat :=
  (Finset.range k).filter fun t => s.finished t = false

def State.remaining (s : State) (k : Nat) : Nat :=
  s.pc.rank k s.spawned + (s.unfinished k).card

theorem remaining_step (hi : Inv c s) (hstep : Step c s a s') :
    s'.remaining c.k + 1 ≤ s.remaining c.k := by
  have hle : s.spawned ≤ c.k := by
    have hcount := List.countP_le_length (p := c.creates) (l := List.range (s.pc.passed c.k))
    rw [List.length_range, ← hi.spawned] at hcount
    exact Nat.le_trans hcount hi.passed
  -- a step of the caller leaves the workers as they are
  have hmain : ∀ s' : State, s'.finished = s.finished →
      s'.pc.rank c.k s'.spawned + 1 ≤ s.pc.rank c.k s.spawned →
      s'.remaining c.k + 1 ≤ s.remaining c.k := by
    intro s' hsame hrank
    unfold State.remaining State.unfinished
    rw [hsame]
    omega
  have hk := one_le_k c
  cases hstep with
  | spawn hpc ht | inPlace hpc ht | created hpc | join hpc ht | joinUnknown hpc ht | first hpc
    | combine hpc ht | finish hpc =>
    refine hmain _ rfl ?_
    rw [hpc]
    simp only [Pc.rank]
    omega
  | @work t hthread hrunning =>
    have ht : t < c.k := Nat.lt_of_lt_of_le ((hi.thread t).mp hthread).1 hi.passed
    have hcard : ((Finset.range c.k).filter fun u =>
        Function.update s.finished t true u = false).card < (s.unfinished c.k).card := by
      refine Finset.card_lt_card (Finset.ssubset_iff_of_subset (fun u hu => ?_) |>.mpr ⟨t, ?_, ?_⟩)
      · obtain ⟨hmem, hu⟩ := Finset.mem_filter.mp hu
        refine Finset.mem_filter.mpr ⟨hmem, ?_⟩
        by_cases hut : u = t
        · rw [hut]
          exact hrunning
        · rwa [Function.update_of_ne hut] at hu
      · exact Finset.mem_filter.mpr ⟨Finset.mem_range.mpr ht, hrunning⟩
      · intro hmem
        have hdone := (Finset.mem_filter.mp hmem).2
        rw [Function.update_self] at hdone
        cases hdone
    unfold State.remaining
    exact Nat.add_lt_add_left hcard _

theorem run_bounded (h : 1 < c.k) (hrun : Run (Step c) c.start as s) :
    as.length + s.remaining c.k ≤ 4 * c.k + 3 := by
  have hstart : c.start.remaining c.k ≤ 4 * c.k + 3 := by
    have hpc := start_threaded h
    have hcard := Finset.card_filter_le (Finset.range c.k) fun t => c.start.finished t = false
    rw [Finset.card_range] at hcard
    unfold State.remaining State.unfinished
    rw [hpc]
    simp only [Pc.rank]
    omega
  induction hrun with
  | nil => exact Nat.le_trans (Nat.le_of_eq (Nat.zero_add _)) hstart
  | snoc hrun hstep ih =>
    have hless := remaining_step (inv_run h hrun) hstep
    rw [List.length_append, List.length_singleton]
    omega

end Runs

/-! ## The theorem -/

variable {c : Call}

theorem correct_serial (h : c.k ≤ 1) : Correct c := by
  have hpc := start_serial h
  refine ⟨fun i hi => chunk_unique (one_le_k c) hi, fun t ht => chunk_within ht,
    fun as s t hrun hjoin => ?_, fun as s t hrun hread => ?_, fun as s r _ _ hk => ?_,
    fun as s r hrun hret => ?_, fun as s hrun => ?_, fun as s hrun => ?_⟩
  · obtain ⟨-, rfl⟩ := run_serial h hrun
    cases hpc.symm.trans hjoin
  · obtain ⟨-, rfl⟩ := run_serial h hrun
    unfold State.reading at hread
    rw [hpc] at hread
    cases hread
  · omega
  · obtain ⟨-, rfl⟩ := run_serial h hrun
    cases hpc.symm.trans hret
    rfl
  · obtain ⟨-, rfl⟩ := run_serial h hrun
    exact .inl ⟨_, hpc⟩
  · obtain ⟨rfl, -⟩ := run_serial h hrun
    exact Nat.zero_le _

theorem correct_threaded (h : 1 < c.k) (hc : CreatesFirst c) : Correct c := by
  refine ⟨fun i hi => chunk_unique (one_le_k c) hi, fun t ht => chunk_within ht,
    fun as s t hrun hjoin ht => ?_, fun as s t hrun hread hthread => ?_,
    fun as s r hrun hret _ => ?_, fun as s r hrun hret => ?_, fun as s hrun => ?_,
    fun as s hrun => ?_⟩
  · exact (inv_run h hrun).thread_of_lt hc (by rw [hjoin]; rfl) ht
  · have hi := inv_run h hrun
    -- the partials are read behind the last join
    have hbehind : s.pc.passed c.k = c.k ∧ s.pc.joined s.spawned = s.spawned ∧ t < c.k := by
      unfold State.reading at hread
      split at hread
      · next u hpc =>
        split at hread
        · next hlast =>
          cases hread
          rw [hpc]
          exact ⟨rfl, hlast, one_le_k c⟩
        · cases hread
      · next u acc hpc =>
        split at hread
        · next hlt =>
          cases hread
          rw [hpc]
          exact ⟨rfl, rfl, hlt⟩
        · cases hread
      · cases hread
    exact (hi.ready hc hbehind.1 hbehind.2.1 hbehind.2.2).2 hthread
  · exact ((combining_run h hc hrun).returned r hret).2
  · rw [((combining_run h hc hrun).returned r hret).1, combinedFold_all]
  · exact can_step (inv_run h hrun) (combining_run h hc hrun)
  · exact Nat.le_trans (Nat.le_add_right _ _) (run_bounded h hrun)

/-- A call that returns has joined its threads, so they are the first ones. -/
theorem createsFirst_of_returned (h : 1 < c.k) {as : List Actor} {s : State} {r : Int}
    (hrun : Run (Step c) c.start as s) (hret : s.pc = .returned r) : CreatesFirst c := by
  have hi := inv_run h hrun
  have hpassed : s.pc.passed c.k = c.k := by rw [hret]; rfl
  have hjoined : s.pc.joined s.spawned = s.spawned := by rw [hret]; rfl
  have hall : ∀ t, t < s.spawned → c.creates t = true := by
    intro t ht
    exact ((hi.thread t).mp (hi.finished t (hi.waited t (hjoined.symm ▸ ht)))).2
  intro t u htu hu hok
  refine hall t ?_
  by_contra hle
  have hspawned := hi.spawned
  rw [hpassed] at hspawned
  -- `u` would be one thread more than were counted
  have hfirst : (List.range s.spawned).countP c.creates = s.spawned := by
    have hlen := List.countP_eq_length.mpr fun v hv => hall v (List.mem_range.mp hv)
    rwa [List.length_range] at hlen
  have hsub : (List.range s.spawned ++ [u]).Sublist (List.range c.k) := by
    have hbelow := (List.range_sublist.mpr (by omega : s.spawned ≤ u)).append_right [u]
    rw [← List.range_succ] at hbelow
    exact hbelow.trans (List.range_sublist.mpr hu)
  have hcount := hsub.countP_le (p := c.creates)
  rw [List.countP_append, List.countP_singleton, if_pos hok, hfirst, ← hspawned] at hcount
  omega

theorem correct_iff (c : Call) : Correct c ↔ CreatesFirst c := by
  rcases Nat.lt_or_ge 1 c.k with hk | hk
  · refine ⟨fun h => ?_, correct_threaded hk⟩
    obtain ⟨as, s, hrun, r, hret⟩ :=
      Run.exists_final (fun s : State => ∃ r, s.pc = .returned r) h.bounded h.progress
    exact createsFirst_of_returned hk hrun hret
  · refine ⟨fun _ t u htu hu => ?_, fun _ => correct_serial hk⟩
    omega

/-- Two chunks, and the first of two creations fails. -/
def failsFirst : Call where
  name := .i32
  op := .add
  col := fun _ => 1
  n := 32768
  ncpu := 2
  creates := fun t => t != 0

/-- Entry 0 of `th` is joined, and nobody waits for the worker of chunk 1. -/
theorem not_correct : ¬ Correct failsFirst := by
  intro h
  have hfail : Run (Step failsFirst) failsFirst.start [.main] _ :=
    Run.nil.snoc (.inPlace (t := 0) rfl (by decide) rfl)
  have hspawn : Run (Step failsFirst) failsFirst.start [.main, .main] _ :=
    hfail.snoc (.spawn (t := 1) rfl (by decide) rfl)
  have hjoin : Run (Step failsFirst) failsFirst.start [.main, .main, .main] _ :=
    hspawn.snoc (.created rfl)
  cases h.joins _ _ 0 hjoin rfl Nat.zero_lt_one

end Arche.Runtime.ParReduce
