import Arche.Lib.Fold
import Arche.Lib.Word
import Arche.Codegen.HandleIdentity

/-!
# `reduce` and `scan` over a column

`emit_fold` folds a column with four lanes and a scalar tail if the pool has no holes, and
with a scalar loop that skips dead rows if it has. The cores backend hands 32 and 64 bit
columns to `arche_par_reduce`, which folds chunks. The element a fold starts from is the one
of `i32` whatever the column is, `min` and `max` compare as signed numbers, and the runtime
sees no generations.

1. `folds_live_iff`: in every pool that calls can reach, all of them fold the live rows
   exactly if the operation is `+` or `*` or the column is `i32` (or a narrow unsigned column
   has no row), and a 32 or 64 bit column has no dead row below `count`.
2. `not_folds_live`: `min` over an `i64` column of large numbers is `2147483647`.
-/

namespace Arche.Codegen

open Arche.Lib

variable {ρ : Type} {cap : Nat}

/-! ## The monoids -/

inductive FoldOp
  | add | mul | min | max
deriving DecidableEq

/-- The operation on values of the column, in its own sign. -/
def FoldOp.combine (w : Word) : FoldOp → Int → Int → Int
  | add, a, b => w.wrap (a + b)
  | mul, a, b => w.wrap (a * b)
  | min, a, b => Min.min a b
  | max, a, b => Max.max a b

def IsIdentity (w : Word) (op : FoldOp) (e : Int) : Prop :=
  ∀ x, w.Holds x → op.combine w e x = x ∧ op.combine w x e = x

/-- A value of the column as `icmp slt` reads it. -/
def asSigned (w : Word) (x : Int) : Int := if w.signed then x else Word.wrap ⟨w.width, true⟩ x

/-- `emit_monoid_combine` and `emit_vec_combine`, and the loops of `arche_par_reduce`. -/
def emitMonoidCombine (w : Word) : FoldOp → Int → Int → Int
  | .add, a, el => w.wrap (a + el)
  | .mul, a, el => w.wrap (a * el)
  | .min, a, el => if asSigned w el < asSigned w a then el else a
  | .max, a, el => if asSigned w el > asSigned w a then el else a

/-- `monoid_identity` as a constant of the column's type. -/
def monoidIdentity (w : Word) (op : FoldOp) : Int :=
  w.wrap (match op with
    | .add => 0
    | .mul => 1
    | .min => 2147483647
    | .max => -2147483648)

/-- The `id` of `arche_par_reduce`. -/
def prIdentity (w : Word) (op : FoldOp) : Int :=
  w.wrap (match op with
    | .add => 0
    | .mul => 1
    | .min => 2 ^ (w.width - 1) - 1
    | .max => -2 ^ (w.width - 1))

/-! ## The emitted loops -/

/-- `emit_pool_has_holes`. -/
def Pool.hasHoles (p : Pool ρ cap) : Bool := p.freeCount ≠ 0

/-- The rows the four lanes go over, in rounds. -/
def Pool.rounds (p : Pool ρ cap) : Nat := if p.hasHoles then 0 else p.count.toNat / 4

/-- One pass of the scalar loop. -/
def foldRow (p : Pool ρ cap) (w : Word) (op : FoldOp) (col : Nat → Int) (acc : Int) (i : Nat) : Int :=
  if p.hasHoles && p.deadRow i then acc else emitMonoidCombine w op acc (col i)

/-- `emit_fold` without write-back. -/
def cpuReduce (p : Pool ρ cap) (w : Word) (op : FoldOp) (col : Nat → Int) : Int :=
  let id := monoidIdentity w op
  let nvec := 4 * p.rounds
  let acc := emitMonoidCombine w op id
    (across (emitMonoidCombine w op) (lanes (emitMonoidCombine w op) id col p.rounds))
  (List.range' nvec (p.count.toNat - nvec)).foldl (foldRow p w op col) acc

/-- One pass of the scalar loop with write-back. -/
def scanRow (p : Pool ρ cap) (w : Word) (op : FoldOp) (s : Int × (Nat → Int)) (i : Nat) :
    Int × (Nat → Int) :=
  if p.hasHoles && p.deadRow i then s
  else
    let r := emitMonoidCombine w op s.1 (s.2 i)
    (r, Function.update s.2 i r)

/-- `emit_fold` with write-back: the column afterwards. -/
def cpuScan (p : Pool ρ cap) (w : Word) (op : FoldOp) (col : Nat → Int) : Nat → Int :=
  ((List.range p.count.toNat).foldl (scanRow p w op) (monoidIdentity w op, col)).2

/-! ## The runtime -/

/-- `pr_nthreads`, with the number of processors. -/
def prNthreads (ncpu n : Nat) : Nat :=
  let ncpu := Min.min (Max.max ncpu 1) 16
  Max.max 1 (Min.min (Max.max (n / 16384) 1) ncpu)

/-- `arche_par_reduce`; a chunk is folded the same way by a thread or in place. -/
def archeParReduce (ncpu : Nat) (w : Word) (op : FoldOp) (col : Nat → Int) (n : Int) : Int :=
  let id := prIdentity w op
  if n ≤ 0 then id
  else
    let k := prNthreads ncpu n.toNat
    if k ≤ 1 then foldRange (emitMonoidCombine w op) id col 0 n.toNat
    else chunked (emitMonoidCombine w op) id col n.toNat k

/-- The types `cores_emit_reduce` has a runtime function for. -/
def runtimeType (w : Word) : Bool := w.width == 32 || w.width == 64

/-- `cores_emit_reduce`. -/
def coresReduce (ncpu : Nat) (p : Pool ρ cap) (w : Word) (op : FoldOp) (col : Nat → Int) : Int :=
  if runtimeType w then archeParReduce ncpu w op col p.count else cpuReduce p w op col

/-! ## What they should compute -/

/-- The fold over the live rows below `n`, in slot order. -/
def liveFold (p : Pool ρ cap) (w : Word) (op : FoldOp) (col : Nat → Int) (n : Nat) : Int :=
  (((List.range n).filter fun i => !p.deadRow i).map col).foldl (op.combine w) (monoidIdentity w op)

/-- Every backend starts from an identity and folds the live rows, whatever the column holds. -/
structure FoldsLive (p : Pool ρ cap) (w : Word) (op : FoldOp) : Prop where
  identity : IsIdentity w op (monoidIdentity w op)
  prIdentity : runtimeType w = true → IsIdentity w op (prIdentity w op)
  reduce : ∀ col, (∀ i, w.Holds (col i)) → cpuReduce p w op col = liveFold p w op col p.count.toNat
  cores : ∀ ncpu col, (∀ i, w.Holds (col i)) →
    coresReduce ncpu p w op col = liveFold p w op col p.count.toNat
  scan : ∀ col, (∀ i, w.Holds (col i)) → ∀ i, cpuScan p w op col i =
    if i < p.count.toNat ∧ p.deadRow i = false then liveFold p w op col (i + 1) else col i

/-- The condition. -/
structure FoldOk (p : Pool ρ cap) (w : Word) (op : FoldOp) : Prop where
  op : op = .add ∨ op = .mul ∨ w = ⟨32, true⟩ ∨
    (w.signed = false ∧ w.width < 32 ∧ ∀ i < p.count.toNat, p.deadRow i = true)
  holes : runtimeType w = true → ∀ i < p.count.toNat, p.deadRow i = false

/-! ## Pools -/

/-- What the loops rely on: a pool whose free list is empty has no dead row. -/
structure Pool.Tight (p : Pool ρ cap) : Prop where
  free : 0 ≤ p.freeCount
  holes : p.freeCount = 0 → ∀ i < p.count.toNat, p.deadRow i = false

namespace FoldLemmas

open PoolLemmas CapacityLemmas

theorem deadRow_eq_false_iff {p : Pool ρ cap} {i : Nat} : p.deadRow i = false ↔ ¬ p.DeadAt i := by
  rw [← deadRow_iff, Bool.not_eq_true]

theorem tight_start (zero : ρ) (length : Int) : (allocInit cap zero length).Tight :=
  ⟨show (0 : Int) ≤ 1 by decide, fun h => absurd h (show (1 : Int) ≠ 0 by decide)⟩

theorem tight_insert {p : Pool ρ cap} (hp : p.Tight) {row : ρ} {ev : Int} {o : Outcome ρ cap}
    (h : archeInsert p row ev = some o) : o.pool.Tight := by
  obtain ⟨-, hpool⟩ | ⟨c, -, -, hbound, hcount, hfree, halive, hothers⟩ := insert_outcome h hp.free
  · rw [hpool]
    exact hp
  · refine ⟨hfree.1, fun hzero i hi => ?_⟩
    by_cases hslot : (i : Int) = c.slot
    · rw [deadRow_eq_false_iff, hslot]
      exact halive
    · rw [deadRow_congr (hothers i hslot)]
      exact hp.holes (hfree.2 hzero) i (by omega)

theorem tight_delete {p : Pool ρ cap} (hp : p.Tight) {h : BitVec 64} {o : Outcome ρ cap}
    (hdel : archeDelete p h = some o) (hab : o.aborted = false) : o.pool.Tight := by
  obtain ⟨-, hpool⟩ | ⟨_, _, _, _, _, _, hfree, _⟩ := delete_outcome hdel hab hp.free
  · rw [hpool]
    exact hp
  · exact ⟨le_of_lt hfree, fun hzero => absurd hzero (ne_of_gt hfree)⟩

theorem tight_sort (p : Pool ρ cap) (rows : Vector ρ cap) : (p.sortTrim rows).Tight := by
  refine ⟨le_refl (0 : Int), fun _ i hi => ?_⟩
  have hlive : i < p.live := by
    have hi' : i < ((p.live : Nat) : Int).toNat := hi
    omega
  have hlt : (i : Int) < p.count := by
    have := live_le p
    omega
  rw [deadRow_eq_false_iff]
  rintro ⟨g, hg, hdead⟩
  rw [gen_sortTrim, if_pos hlt] at hg
  obtain ⟨g', -, rfl⟩ := Option.map_eq_some_iff.mp hg
  cases hdead

theorem tight_of_run {zero : ρ} {length : Int} {ops : List (LifeOp ρ cap)} {s : Life ρ cap}
    (h : Run Life.Step (Life.start cap zero length) ops s) : s.pool.Tight := by
  refine Run.inv (fun s : Life ρ cap => s.pool.Tight) (tight_start zero length) ?_ h
  intro a op b ha hstep
  cases hstep with
  | insert _ hins =>
    unfold Life.inserted
    split <;> exact tight_insert ha hins
  | delete _ hdel hab =>
    unfold Life.deleted
    split <;> exact tight_delete ha hdel hab
  | cell => exact ha
  | mint => exact ha
  | sort => exact tight_sort _ _

/-! ## The monoids -/

instance (w : Word) (op : FoldOp) : Std.Associative (op.combine w) := by
  refine ⟨fun a b c => ?_⟩
  cases op with
  | add =>
    show w.wrap (w.wrap (a + b) + c) = w.wrap (a + w.wrap (b + c))
    have hl := (w.wrap_modEq (a + b)).add_right c
    have hr := (w.wrap_modEq (b + c)).add_left a
    rw [Word.wrap_eq_iff]
    exact hl.trans ((Int.add_assoc a b c) ▸ hr.symm)
  | mul =>
    show w.wrap (w.wrap (a * b) * c) = w.wrap (a * w.wrap (b * c))
    have hl := (w.wrap_modEq (a * b)).mul_right c
    have hr := (w.wrap_modEq (b * c)).mul_left a
    rw [Word.wrap_eq_iff]
    exact hl.trans ((Int.mul_assoc a b c) ▸ hr.symm)
  | min => exact min_assoc a b c
  | max => exact max_assoc a b c

instance (w : Word) (op : FoldOp) : Std.Commutative (op.combine w) := by
  refine ⟨fun a b => ?_⟩
  cases op with
  | add => exact congrArg w.wrap (Int.add_comm a b)
  | mul => exact congrArg w.wrap (Int.mul_comm a b)
  | min => exact min_comm a b
  | max => exact max_comm a b

theorem combine_monoidIdentity (w : Word) (op : FoldOp) :
    op.combine w (monoidIdentity w op) (monoidIdentity w op) = monoidIdentity w op := by
  cases op with
  | add => exact w.wrap_add 0 0
  | mul => exact w.wrap_mul 1 1
  | min => exact min_self _
  | max => exact max_self _

/-- `+` and `*` are the same in both signs, and a signed column is compared as it should be. -/
theorem emitMonoidCombine_eq {w : Word} {op : FoldOp} (h : op = .add ∨ op = .mul ∨ w.signed = true) :
    emitMonoidCombine w op = op.combine w := by
  funext a el
  cases op with
  | add => rfl
  | mul => rfl
  | min =>
    have hs : w.signed = true := by simpa using h
    simp only [emitMonoidCombine, asSigned, hs, if_true, FoldOp.combine]
    omega
  | max =>
    have hs : w.signed = true := by simpa using h
    simp only [emitMonoidCombine, asSigned, hs, if_true, FoldOp.combine]
    omega

theorem emit_eq_of_good {w : Word} {op : FoldOp} (h : op = .add ∨ op = .mul ∨ w = ⟨32, true⟩) :
    emitMonoidCombine w op = op.combine w := by
  refine emitMonoidCombine_eq ?_
  rcases h with rfl | rfl | rfl
  · exact .inl rfl
  · exact .inr (.inl rfl)
  · exact .inr (.inr rfl)

theorem emitMonoidCombine_self (w : Word) (op : FoldOp) :
    emitMonoidCombine w op (monoidIdentity w op) (monoidIdentity w op) = monoidIdentity w op := by
  cases op with
  | add => exact w.wrap_add 0 0
  | mul => exact w.wrap_mul 1 1
  | min => exact if_neg (lt_irrefl _)
  | max => exact if_neg (lt_irrefl _)

theorem prIdentity_eq {w : Word} {op : FoldOp} (h : op = .add ∨ op = .mul ∨ w = ⟨32, true⟩) :
    prIdentity w op = monoidIdentity w op := by
  rcases h with rfl | rfl | rfl
  · rfl
  · rfl
  · cases op <;> rfl

theorem isIdentity_monoidIdentity {w : Word} {op : FoldOp}
    (h : op = .add ∨ op = .mul ∨ w = ⟨32, true⟩) : IsIdentity w op (monoidIdentity w op) := by
  intro x hx
  have hcomm : op.combine w x (monoidIdentity w op) = op.combine w (monoidIdentity w op) x :=
    Std.Commutative.comm _ _
  rw [hcomm, and_self]
  have hx' : w.wrap x = x := hx
  have hrange (h32 : w = ⟨32, true⟩) : -2147483648 ≤ x ∧ x ≤ 2147483647 := by
    subst h32
    have hiff := Word.holds_iff.mp hx
    simp only [if_true] at hiff
    omega
  cases op with
  | add =>
    show w.wrap (w.wrap 0 + x) = x
    rw [← hx', w.wrap_add, Int.zero_add]
  | mul =>
    show w.wrap (w.wrap 1 * x) = x
    rw [← hx', w.wrap_mul, Int.one_mul]
  | min =>
    have h32 : w = ⟨32, true⟩ := by simpa using h
    subst h32
    exact min_eq_right (hrange rfl).2
  | max =>
    have h32 : w = ⟨32, true⟩ := by simpa using h
    subst h32
    exact max_eq_right (hrange rfl).1

/-- The constants are identities of the other columns only by chance: cut to an unsigned byte or half
word. -/
theorem identity_cases {w : Word} {op : FoldOp}
    (hw : w.width = 8 ∨ w.width = 16 ∨ w.width = 32 ∨ w.width = 64 ∨ w.width = 128)
    (h : IsIdentity w op (monoidIdentity w op)) :
    op = .add ∨ op = .mul ∨ w = ⟨32, true⟩ ∨ (w.signed = false ∧ w.width < 32) := by
  obtain ⟨width, signed⟩ := w
  have hmin (x : Int) (hx : Word.Holds ⟨width, signed⟩ x) (hop : op = .min)
      (hlt : Word.wrap ⟨width, signed⟩ 2147483647 < x) : False := by
    subst hop
    have heq : Min.min (Word.wrap ⟨width, signed⟩ 2147483647) x = x := (h x hx).1
    omega
  have hmax (x : Int) (hx : Word.Holds ⟨width, signed⟩ x) (hop : op = .max)
      (hlt : x < Word.wrap ⟨width, signed⟩ (-2147483648)) : False := by
    subst hop
    have heq : Max.max (Word.wrap ⟨width, signed⟩ (-2147483648)) x = x := (h x hx).1
    omega
  cases op with
  | add => exact .inl rfl
  | mul => exact .inr (.inl rfl)
  | min =>
    rcases hw with rfl | rfl | rfl | rfl | rfl <;> cases signed
    · exact .inr (.inr (.inr ⟨rfl, by decide⟩))
    · exact (hmin 127 (by decide) rfl (by decide)).elim
    · exact .inr (.inr (.inr ⟨rfl, by decide⟩))
    · exact (hmin 32767 (by decide) rfl (by decide)).elim
    · exact (hmin 4294967295 (by decide) rfl (by decide)).elim
    · exact .inr (.inr (.inl rfl))
    · exact (hmin 4294967295 (by decide) rfl (by decide)).elim
    · exact (hmin 4294967295 (by decide) rfl (by decide)).elim
    · exact (hmin 4294967295 (by decide) rfl (by decide)).elim
    · exact (hmin 4294967295 (by decide) rfl (by decide)).elim
  | max =>
    rcases hw with rfl | rfl | rfl | rfl | rfl <;> cases signed
    · exact .inr (.inr (.inr ⟨rfl, by decide⟩))
    · exact (hmax (-128) (by decide) rfl (by decide)).elim
    · exact .inr (.inr (.inr ⟨rfl, by decide⟩))
    · exact (hmax (-32768) (by decide) rfl (by decide)).elim
    · exact (hmax 0 (by decide) rfl (by decide)).elim
    · exact .inr (.inr (.inl rfl))
    · exact (hmax 0 (by decide) rfl (by decide)).elim
    · exact (hmax (-4294967296) (by decide) rfl (by decide)).elim
    · exact (hmax 0 (by decide) rfl (by decide)).elim
    · exact (hmax (-4294967296) (by decide) rfl (by decide)).elim

/-! ## The loops fold the live rows -/

section Loops

variable {p : Pool ρ cap} {w : Word} {op : FoldOp}

/-- A row is skipped exactly if it is dead. -/
theorem skips (hp : p.Tight) {i : Nat} (hi : i < p.count.toNat) :
    (p.hasHoles && p.deadRow i) = p.deadRow i := by
  by_cases hzero : p.freeCount = 0
  · rw [hp.holes hzero i hi, Bool.and_false]
  · rw [Pool.hasHoles, decide_eq_true hzero, Bool.true_and]

theorem foldl_foldRow (hp : p.Tight) (col : Nat → Int) {xs : List Nat}
    (hxs : ∀ i ∈ xs, i < p.count.toNat) (acc : Int) :
    xs.foldl (foldRow p w op col) acc =
      ((xs.filter fun i => !p.deadRow i).map col).foldl (emitMonoidCombine w op) acc := by
  induction xs generalizing acc with
  | nil => rfl
  | cons i xs ih =>
    rw [List.forall_mem_cons] at hxs
    rw [List.foldl_cons, ih hxs.2, foldRow, skips hp hxs.1]
    cases hdead : p.deadRow i with
    | true => rw [List.filter_cons_of_neg (by simp [hdead]), if_pos rfl]
    | false =>
      rw [List.filter_cons_of_pos (by simp [hdead]), List.map_cons, List.foldl_cons, if_neg (by decide)]

/-- The lanes go over live rows only. -/
theorem filter_rounds (hp : p.Tight) :
    ((List.range (4 * p.rounds)).filter fun i => !p.deadRow i) = List.range (4 * p.rounds) := by
  refine List.filter_eq_self.mpr fun i hi => ?_
  rw [List.mem_range, Pool.rounds, Pool.hasHoles] at hi
  split at hi
  · omega
  · next hzero =>
    have hzero : p.freeCount = 0 := by simpa using hzero
    rw [hp.holes hzero i (by omega)]
    rfl

theorem rounds_le (p : Pool ρ cap) : 4 * p.rounds ≤ p.count.toNat := by
  unfold Pool.rounds
  split <;> omega

/-- The four lanes and the tail. -/
theorem cpuReduce_eq (hp : p.Tight) (hop : emitMonoidCombine w op = op.combine w) (col : Nat → Int) :
    cpuReduce p w op col = liveFold p w op col p.count.toNat := by
  have he := combine_monoidIdentity w op
  have hsplit : List.range p.count.toNat =
      List.range (4 * p.rounds) ++ List.range' (4 * p.rounds) (p.count.toNat - 4 * p.rounds) := by
    have hle := rounds_le p
    have hlen : p.count.toNat = 4 * p.rounds + (p.count.toNat - 4 * p.rounds) := by omega
    nth_rewrite 1 [hlen]
    rw [List.range_eq_range', List.range_eq_range', ← List.range'_append_1, Nat.zero_add]
  have hacc : op.combine w (monoidIdentity w op)
      (across (op.combine w) (lanes (op.combine w) (monoidIdentity w op) col p.rounds)) =
      ((List.range (4 * p.rounds)).map col).foldl (op.combine w) (monoidIdentity w op) := by
    have hassoc : ((List.range (4 * p.rounds)).map col).foldl (op.combine w)
        (op.combine w (monoidIdentity w op) (monoidIdentity w op)) = _ := List.foldl_assoc
    rw [across_lanes he, ← hassoc, he]
  have htail : ∀ i ∈ List.range' (4 * p.rounds) (p.count.toNat - 4 * p.rounds), i < p.count.toNat := by
    intro i hi
    rw [List.mem_range'_1] at hi
    omega
  unfold cpuReduce liveFold
  dsimp only
  rw [foldl_foldRow hp col htail, hop, hacc, hsplit, List.filter_append, filter_rounds hp, List.map_append,
    List.foldl_append]

/-- A fold that starts at an absorbing element. -/
theorem cpuReduce_eq_identity {col : Nat → Int}
    (h : ∀ i, emitMonoidCombine w op (monoidIdentity w op) (col i) = monoidIdentity w op) :
    cpuReduce p w op col = monoidIdentity w op := by
  have hself := emitMonoidCombine_self w op
  have hlanes : ∀ q l, lanes (emitMonoidCombine w op) (monoidIdentity w op) col q l = monoidIdentity w op := by
    intro q
    induction q with
    | zero => exact fun l => rfl
    | succ q ih =>
      intro l
      show emitMonoidCombine w op (lanes _ _ col q l) (col (4 * q + l)) = _
      rw [ih l]
      exact h _
  unfold cpuReduce across
  dsimp only
  rw [hlanes, hlanes, hlanes, hlanes, hself, hself, hself]
  refine foldl_eq_self fun i _ => ?_
  unfold foldRow
  split
  · rfl
  · exact h i

theorem liveFold_succ (col : Nat → Int) (n : Nat) :
    liveFold p w op col (n + 1) =
      if p.deadRow n then liveFold p w op col n else op.combine w (liveFold p w op col n) (col n) := by
  unfold liveFold
  rw [List.range_succ, List.filter_append]
  cases hdead : p.deadRow n with
  | true => rw [List.filter_cons_of_neg (by simp [hdead]), List.filter_nil, List.append_nil, if_pos rfl]
  | false =>
    rw [List.filter_cons_of_pos (by simp [hdead]), List.filter_nil, List.map_append, List.foldl_append,
      if_neg (by decide)]
    rfl

/-- The scan after the rows below `n`. -/
theorem scan_rows (hp : p.Tight) (hop : emitMonoidCombine w op = op.combine w) (col : Nat → Int) (n : Nat)
    (hn : n ≤ p.count.toNat) :
    (List.range n).foldl (scanRow p w op) (monoidIdentity w op, col) =
      (liveFold p w op col n, fun i =>
        if i < n ∧ p.deadRow i = false then liveFold p w op col (i + 1) else col i) := by
  induction n with
  | zero =>
    refine Prod.ext rfl (funext fun i => ?_)
    have hnot : ¬ (i < 0 ∧ p.deadRow i = false) := fun h => absurd h.1 (Nat.not_lt_zero i)
    show col i = if i < 0 ∧ p.deadRow i = false then liveFold p w op col (i + 1) else col i
    rw [if_neg hnot]
  | succ n ih =>
    rw [List.range_succ, List.foldl_append, ih (by omega), List.foldl_cons, List.foldl_nil, scanRow,
      skips hp (by omega), hop, liveFold_succ]
    -- the row is read before it is written, and no row is written twice
    have hread : ¬ (n < n ∧ p.deadRow n = false) := fun h => absurd h.1 (lt_irrefl n)
    cases hdead : p.deadRow n with
    | true =>
      rw [if_pos rfl, if_pos rfl]
      refine Prod.ext rfl (funext fun i => ?_)
      refine if_congr ?_ rfl rfl
      constructor
      · exact fun h => ⟨by omega, h.2⟩
      · rintro ⟨hi, hlive⟩
        refine ⟨?_, hlive⟩
        rcases Nat.lt_succ_iff_lt_or_eq.mp hi with hi | rfl
        · exact hi
        · rw [hdead] at hlive
          cases hlive
    | false =>
      rw [if_neg (by decide), if_neg (by decide)]
      dsimp only
      rw [if_neg hread]
      refine Prod.ext rfl (funext fun i => ?_)
      dsimp only
      by_cases hi : i = n
      · subst hi
        rw [Function.update_self, if_pos ⟨Nat.lt_succ_self i, hdead⟩, liveFold_succ, hdead]
        rfl
      · rw [Function.update_of_ne hi]
        exact if_congr ⟨fun h => ⟨by omega, h.2⟩, fun h => ⟨by omega, h.2⟩⟩ rfl rfl

theorem cpuScan_eq (hp : p.Tight) (hop : emitMonoidCombine w op = op.combine w) (col : Nat → Int)
    (i : Nat) : cpuScan p w op col i =
      if i < p.count.toNat ∧ p.deadRow i = false then liveFold p w op col (i + 1) else col i := by
  rw [cpuScan, scan_rows hp hop col _ (le_refl _)]

/-- The runtime folds all rows. -/
theorem archeParReduce_eq (hop : emitMonoidCombine w op = op.combine w)
    (hid : prIdentity w op = monoidIdentity w op) (ncpu : Nat) (col : Nat → Int) (n : Int) :
    archeParReduce ncpu w op col n =
      ((List.range n.toNat).map col).foldl (op.combine w) (monoidIdentity w op) := by
  unfold archeParReduce
  dsimp only
  rw [hid, hop]
  split
  · next hneg =>
    rw [Int.toNat_of_nonpos hneg]
    rfl
  · split
    · rw [foldRange, Nat.sub_zero, List.range_eq_range']
    · exact chunked_eq (combine_monoidIdentity w op) col _ (by omega)

theorem coresReduce_eq (hp : p.Tight) (hop : op = .add ∨ op = .mul ∨ w = ⟨32, true⟩)
    (hemit : emitMonoidCombine w op = op.combine w)
    (hholes : runtimeType w = true → ∀ i < p.count.toNat, p.deadRow i = false) (ncpu : Nat)
    (col : Nat → Int) : coresReduce ncpu p w op col = liveFold p w op col p.count.toNat := by
  unfold coresReduce
  split
  · next hrt =>
    have hall : ((List.range p.count.toNat).filter fun i => !p.deadRow i) = List.range p.count.toNat := by
      refine List.filter_eq_self.mpr fun i hi => ?_
      rw [hholes hrt i (List.mem_range.mp hi)]
      rfl
    rw [archeParReduce_eq hemit (prIdentity_eq hop), liveFold, hall]
  · exact cpuReduce_eq hp hemit col

/-- A column that is the same value in every row. -/
theorem liveFold_const {x : Int} (hid : op.combine w (monoidIdentity w op) x = x)
    (hself : op.combine w x x = x) {i : Nat} (hi : i < p.count.toNat) (hlive : p.deadRow i = false) :
    liveFold p w op (fun _ => x) p.count.toNat = x := by
  have hmem : i ∈ (List.range p.count.toNat).filter fun i => !p.deadRow i :=
    List.mem_filter.mpr ⟨List.mem_range.mpr hi, by simp [hlive]⟩
  unfold liveFold
  cases hrows : (List.range p.count.toNat).filter fun i => !p.deadRow i with
  | nil =>
    rw [hrows] at hmem
    cases hmem
  | cons j rest =>
    rw [List.map_cons, List.foldl_cons, hid]
    refine foldl_eq_self fun y hy => ?_
    obtain ⟨k, -, rfl⟩ := List.mem_map.mp hy
    exact hself

end Loops

/-! ## A pool without live rows -/

theorem isIdentity_narrow {w : Word} {op : FoldOp} (hop : ¬ (op = .add ∨ op = .mul ∨ w = ⟨32, true⟩))
    (hw : w = ⟨8, false⟩ ∨ w = ⟨16, false⟩) : IsIdentity w op (monoidIdentity w op) := by
  intro x hx
  have hcomm : op.combine w x (monoidIdentity w op) = op.combine w (monoidIdentity w op) x :=
    Std.Commutative.comm _ _
  rw [hcomm, and_self]
  have hrange := Word.holds_iff.mp hx
  cases op with
  | add => exact absurd (.inl rfl) hop
  | mul => exact absurd (.inr (.inl rfl)) hop
  | min =>
    refine min_eq_right ?_
    rcases hw with rfl | rfl
    · show x ≤ 255
      simp at hrange
      omega
    · show x ≤ 65535
      simp at hrange
      omega
  | max =>
    refine max_eq_right ?_
    rcases hw with rfl | rfl
    · exact (by simpa using hrange : 0 ≤ x ∧ x < _).1
    · exact (by simpa using hrange : 0 ≤ x ∧ x < _).1

theorem folds_of_no_live {p : Pool ρ cap} {w : Word} {op : FoldOp} (hp : p.Tight)
    (hdead : ∀ i < p.count.toNat, p.deadRow i = true) (hid : IsIdentity w op (monoidIdentity w op))
    (hrt : ¬ runtimeType w = true) : FoldsLive p w op := by
  have hnone (col : Nat → Int) : liveFold p w op col p.count.toNat = monoidIdentity w op := by
    have hnil : ((List.range p.count.toNat).filter fun i => !p.deadRow i) = [] := by
      refine List.filter_eq_nil_iff.mpr fun i hi => ?_
      simp [hdead i (List.mem_range.mp hi)]
    rw [liveFold, hnil]
    rfl
  have hrounds : p.rounds = 0 := by
    unfold Pool.rounds Pool.hasHoles
    split
    · rfl
    · next hzero =>
      have hzero : p.freeCount = 0 := by simpa using hzero
      by_contra hne
      have hpos : 0 < p.count.toNat := by omega
      have hlive := hp.holes hzero 0 hpos
      rw [hdead 0 hpos] at hlive
      cases hlive
  have hself := emitMonoidCombine_self w op
  have hreduce (col : Nat → Int) : cpuReduce p w op col = monoidIdentity w op := by
    unfold cpuReduce across
    dsimp only
    rw [hrounds]
    show (List.range' 0 p.count.toNat).foldl _ (emitMonoidCombine w op (monoidIdentity w op)
      (emitMonoidCombine w op (emitMonoidCombine w op (monoidIdentity w op) (monoidIdentity w op))
        (emitMonoidCombine w op (monoidIdentity w op) (monoidIdentity w op)))) = _
    rw [hself, hself, hself]
    refine foldl_eq_self fun i hi => ?_
    have hlt : i < p.count.toNat := by
      rw [List.mem_range'_1] at hi
      omega
    rw [foldRow, skips hp hlt, hdead i hlt, if_pos rfl]
  refine ⟨hid, fun h => absurd h hrt, fun col _ => (hreduce col).trans (hnone col).symm, ?_, ?_⟩
  · intro ncpu col _
    rw [coresReduce, if_neg hrt, hreduce, hnone]
  · intro col _ i
    have hsame : (List.range p.count.toNat).foldl (scanRow p w op) (monoidIdentity w op, col) =
        (monoidIdentity w op, col) := by
      refine foldl_eq_self fun i hi => ?_
      have hlt := List.mem_range.mp hi
      rw [scanRow, skips hp hlt, hdead i hlt, if_pos rfl]
    have hnot : ¬ (i < p.count.toNat ∧ p.deadRow i = false) := by
      rintro ⟨hi, hlive⟩
      rw [hdead i hi] at hlive
      cases hlive
    rw [cpuScan, hsame, if_neg hnot]

/-! ## The condition is needed -/

/-- A live row of a narrow unsigned column is compared as a signed number. -/
theorem no_live_of_folds {p : Pool ρ cap} {w : Word} {op : FoldOp} (h : FoldsLive p w op)
    (hop : op = .min ∨ op = .max) (hw : w = ⟨8, false⟩ ∨ w = ⟨16, false⟩) :
    ∀ i < p.count.toNat, p.deadRow i = true := by
  intro i hi
  by_contra hdead
  have hlive : p.deadRow i = false := by simpa using hdead
  have hbad (x : Int) (hx : w.Holds x) (hstuck : emitMonoidCombine w op (monoidIdentity w op) x =
      monoidIdentity w op) (hne : monoidIdentity w op ≠ x) : False := by
    have hred := h.reduce (fun _ => x) fun _ => hx
    rw [cpuReduce_eq_identity fun _ => hstuck, liveFold_const (h.identity x hx).1 ?_ hi hlive] at hred
    · exact hne hred
    · rcases hop with rfl | rfl
      · exact min_self x
      · exact max_self x
  rcases hop with rfl | rfl <;> rcases hw with rfl | rfl
  · exact hbad 0 (by decide) (by decide) (by decide)
  · exact hbad 0 (by decide) (by decide) (by decide)
  · exact hbad 128 (by decide) (by decide) (by decide)
  · exact hbad 32768 (by decide) (by decide) (by decide)

theorem exists_other {w : Word} (hrt : runtimeType w = true) (e : Int) : ∃ x, w.Holds x ∧ x ≠ e := by
  have hw : w.Holds 0 ∧ w.Holds 1 := by
    obtain ⟨width, signed⟩ := w
    have hwidth : width = 32 ∨ width = 64 := by simpa [runtimeType] using hrt
    rcases hwidth with rfl | rfl <;> cases signed <;> decide
  by_cases hzero : e = 0
  · exact ⟨1, hw.2, by omega⟩
  · exact ⟨0, hw.1, fun h => hzero h.symm⟩

/-- The runtime folds a dead row. -/
theorem no_dead_of_folds {p : Pool ρ cap} {w : Word} {op : FoldOp} (h : FoldsLive p w op)
    (hop : op = .add ∨ op = .mul ∨ w = ⟨32, true⟩) (hrt : runtimeType w = true) :
    ∀ i < p.count.toNat, p.deadRow i = false := by
  intro i hi
  by_contra hdead
  have hdead : p.deadRow i = true := by simpa using hdead
  have hemit : emitMonoidCombine w op = op.combine w := emit_eq_of_good hop
  obtain ⟨x, hx, hne⟩ := exists_other hrt (monoidIdentity w op)
  obtain ⟨hleft, hright⟩ := h.identity x hx
  have hself := combine_monoidIdentity w op
  let col (j : Nat) : Int := if j = i then x else monoidIdentity w op
  have hcol : ∀ j, w.Holds (col j) := by
    intro j
    unfold col
    split
    · exact hx
    · exact w.holds_wrap _
  have hcores := h.cores 1 col hcol
  rw [coresReduce, if_pos hrt, archeParReduce_eq hemit (prIdentity_eq hop)] at hcores
  have hother : ∀ j, j ≠ i → col j = monoidIdentity w op := fun j hj => if_neg hj
  have hlive : liveFold p w op col p.count.toNat = monoidIdentity w op := by
    refine foldl_eq_self fun y hy => ?_
    obtain ⟨j, hj, rfl⟩ := List.mem_map.mp hy
    have hji : j ≠ i := by
      rintro rfl
      simp [hdead] at hj
    rw [hother j hji, hself]
  have hall : ((List.range p.count.toNat).map col).foldl (op.combine w) (monoidIdentity w op) = x := by
    have hsplit : List.range p.count.toNat =
        List.range i ++ i :: List.range' (i + 1) (p.count.toNat - (i + 1)) := by
      have hlen : p.count.toNat = i + (p.count.toNat - (i + 1) + 1) := by omega
      nth_rewrite 1 [hlen]
      rw [List.range_eq_range', List.range_eq_range', ← List.range'_append_1, Nat.zero_add,
        List.range'_succ]
    have hbefore : ((List.range i).map col).foldl (op.combine w) (monoidIdentity w op) =
        monoidIdentity w op := by
      refine foldl_eq_self fun y hy => ?_
      obtain ⟨j, hj, rfl⟩ := List.mem_map.mp hy
      rw [hother j (Nat.ne_of_lt (List.mem_range.mp hj)), hself]
    have hi' : col i = x := if_pos rfl
    rw [hsplit, List.map_append, List.foldl_append, hbefore, List.map_cons, List.foldl_cons, hi', hleft]
    refine foldl_eq_self fun y hy => ?_
    obtain ⟨j, hj, rfl⟩ := List.mem_map.mp hy
    rw [List.mem_range'_1] at hj
    rw [hother j (by omega), hright]
  exact hne (hall.symm.trans (hcores.trans hlive))

end FoldLemmas

open FoldLemmas

/-- In a pool that calls can reach, every backend folds the live rows of a column exactly if the
condition holds. -/
theorem folds_live_iff (zero : ρ) (length : Int) (ops : List (LifeOp ρ cap)) (s : Life ρ cap)
    (hrun : Run Life.Step (Life.start cap zero length) ops s) (w : Word)
    (hw : w.width = 8 ∨ w.width = 16 ∨ w.width = 32 ∨ w.width = 64 ∨ w.width = 128) (op : FoldOp) :
    FoldsLive s.pool w op ↔ FoldOk s.pool w op := by
  have hp : s.pool.Tight := tight_of_run hrun
  constructor
  · intro h
    have hid := identity_cases hw h.identity
    refine ⟨?_, fun hrt => no_dead_of_folds h ?_ hrt⟩
    · rcases hid with hadd | hmul | h32 | ⟨hs, hlt⟩
      · exact .inl hadd
      · exact .inr (.inl hmul)
      · exact .inr (.inr (.inl h32))
      · by_cases hop : op = .min ∨ op = .max
        · refine .inr (.inr (.inr ⟨hs, hlt, no_live_of_folds h hop ?_⟩))
          obtain ⟨width, signed⟩ := w
          dsimp only at hs hlt hw
          rcases hw with rfl | rfl | rfl | rfl | rfl
          · exact .inl (by rw [hs])
          · exact .inr (by rw [hs])
          all_goals omega
        · cases op with
          | add => exact .inl rfl
          | mul => exact .inr (.inl rfl)
          | min => exact absurd (.inl rfl) hop
          | max => exact absurd (.inr rfl) hop
    · rcases hid with hadd | hmul | h32 | ⟨-, hlt⟩
      · exact .inl hadd
      · exact .inr (.inl hmul)
      · exact .inr (.inr h32)
      · exact absurd hrt (by unfold runtimeType; simp; omega)
  · rintro ⟨hop, hholes⟩
    by_cases hgood : op = .add ∨ op = .mul ∨ w = ⟨32, true⟩
    · have hemit : emitMonoidCombine w op = op.combine w := emit_eq_of_good hgood
      exact ⟨isIdentity_monoidIdentity hgood, fun _ => prIdentity_eq hgood ▸ isIdentity_monoidIdentity hgood,
        fun col _ => cpuReduce_eq hp hemit col, fun ncpu col _ => coresReduce_eq hp hgood hemit hholes ncpu col,
        fun col _ => cpuScan_eq hp hemit col⟩
    · have hnarrow : w.signed = false ∧ w.width < 32 ∧ ∀ i < s.pool.count.toNat, s.pool.deadRow i = true := by
        rcases hop with hadd | hmul | h32 | hnarrow
        · exact absurd (.inl hadd) hgood
        · exact absurd (.inr (.inl hmul)) hgood
        · exact absurd (.inr (.inr h32)) hgood
        · exact hnarrow
      obtain ⟨hs, hlt, hdead⟩ := hnarrow
      refine folds_of_no_live hp hdead ?_ (by unfold runtimeType; simp; omega)
      obtain ⟨width, signed⟩ := w
      dsimp only at hs hlt hw
      subst hs
      rcases hw with rfl | rfl | rfl | rfl | rfl
      · exact isIdentity_narrow hgood (.inl rfl)
      · exact isIdentity_narrow hgood (.inr rfl)
      all_goals omega

/-- `min` over the `i32` column of the pool `[2]P(1)`. -/
theorem folds_live_word : FoldsLive (Life.start 2 () 1).pool ⟨32, true⟩ .min := by
  refine (folds_live_iff () 1 [] (Life.start 2 () 1) .nil ⟨32, true⟩ (by decide) .min).mpr ⟨?_, ?_⟩
  · exact .inr (.inr (.inl rfl))
  · intro _ i hi
    have hone : i < 1 := hi
    have hzero : i = 0 := by omega
    subst hzero
    decide

/-- `min` over an `i64` column of the pool `[2]P(1)` whose row is `1099511627776`. -/
theorem not_folds_live : ¬ ∀ (ops : List (LifeOp Unit 2)) (s : Life Unit 2) (w : Word) (op : FoldOp),
    Run Life.Step (Life.start 2 () 1) ops s →
      w.width = 8 ∨ w.width = 16 ∨ w.width = 32 ∨ w.width = 64 ∨ w.width = 128 →
      FoldsLive s.pool w op := by
  intro hall
  have hid := (hall [] _ ⟨64, true⟩ .min .nil (by decide)).identity 1099511627776 (by decide)
  exact absurd hid.1 (by decide)

end Arche.Codegen
