import Arche.Lib.Interchange
import Mathlib.Data.List.Basic

/-!
# Fusion of whole-column assignments

`codegen_body_fused` records consecutive assignments to whole columns and
`flush_map_batch` emits one loop for up to 128 of them, over as many rows as the
first one's pool has. The meaning of the source is one sweep over the rows of its
own pool for each assignment (`emit_whole_column_loop`).

* Cells hold exact integers, and integer columns are never vectorised. `none` is
  the exit of an aborting policy.
* The rows of the pools do not change in such a body.

1. `fusionExact_of_fusable`: the fused body leaves every column as the sweeps do,
   if in each batch the pools have the same number of rows and no right side reads
   a cell that the fused loop writes too early or too late.
2. `not_fusionExact`: an explicit row index can read such a cell.
-/

namespace Arche.Codegen.MapFusion

open Arche.Lib.Interchange

/-! ## Right-hand sides -/

/-- The operators of `reduce`. -/
inductive Monoid
  | add
  | mul
  | min
  | max
deriving DecidableEq, Repr

/-- `monoid_identity`. -/
def Monoid.identity : Monoid → Int
  | .add => 0
  | .mul => 1
  | .min => 2147483647
  | .max => -2147483648

/-- `emit_monoid_combine`. -/
def Monoid.combine : Monoid → Int → Int → Int
  | .add, a, el => a + el
  | .mul, a, el => a * el
  | .min, a, el => if el < a then el else a
  | .max, a, el => if el > a then el else a

inductive Op
  | add
  | sub
  | mul
  | div
  | mod
deriving DecidableEq, Repr

section Model

variable {κ π : Type}

/-- `name c` is a bound column, `field c` is `Pool.col`. `index c row e` is the element of `c` at the
explicit index `e`, with `row` the row its policy picks. `reduce m p e` folds `e` over the live rows
of `p`, `reduceBare m c` a bound column over all its rows. `apply f es` is any other value computed
from values: a call of a func, a comparison, a conversion. -/
inductive Expr (κ π : Type)
  | literal (n : Int)
  | name (c : κ)
  | field (c : κ)
  | index (c : κ) (row : Int → Option Nat) (e : Expr κ π)
  | reduce (m : Monoid) (p : π) (e : Expr κ π)
  | reduceBare (m : Monoid) (c : κ)
  | binary (op : Op) (l r : Expr κ π)
  | apply (f : List Int → Option Int) (es : List (Expr κ π))

/-- The pools: the pool of a column, the rows of a pool and which of them are dead, the pools declared
with one row, and division under the program's policy. -/
structure Pools (κ π : Type) where
  pool : κ → π
  count : π → Nat
  dead : π → Nat → Bool
  singleton : π → Bool
  div : Int → Int → Option Int
  mod : Int → Int → Option Int

def Pools.rowsOf (P : Pools κ π) (c : κ) : Nat := P.count (P.pool c)

def Pools.live (P : Pools κ π) (p : π) : List Nat :=
  (List.range (P.count p)).filter fun j => !P.dead p j

def Op.eval (P : Pools κ π) : Op → Int → Int → Option Int
  | .add, a, b => some (a + b)
  | .sub, a, b => some (a - b)
  | .mul, a, b => some (a * b)
  | .div, a, b => P.div a b
  | .mod, a, b => P.mod a b

section Eval

variable [DecidableEq π] (P : Pools κ π) (σ : Store κ Int) (i : Nat)

/-- The row a bound column is read at in round `i`. -/
def nameRow (c : κ) : Nat := if P.singleton (P.pool c) then 0 else i

/-- The row `Pool.col` is read at: the counter of the fold over its pool, if there is one. -/
def fieldRow (fold : Option (π × Nat)) (c : κ) : Nat :=
  match fold with
  | some (p, j) => if P.pool c = p then j else i
  | none => i

mutual

/-- The value of an expression in round `i` of a column loop. -/
def eval (fold : Option (π × Nat)) : Expr κ π → Option Int
  | .literal n => some n
  | .name c => some (σ c (nameRow P i c))
  | .field c => some (σ c (fieldRow P i fold c))
  | .index c row e => ((eval fold e).bind row).map (σ c)
  | .reduce m p e =>
    (P.live p).foldlM (fun acc j => (eval (some (p, j)) e).map (m.combine acc)) m.identity
  | .reduceBare m c =>
    some ((List.range (P.rowsOf c)).foldl (fun acc j => m.combine acc (σ c j)) m.identity)
  | .binary op l r => (eval fold l).bind fun a => (eval fold r).bind (op.eval P a)
  | .apply f es => (evalAll fold es).bind f

def evalAll (fold : Option (π × Nat)) : List (Expr κ π) → Option (List Int)
  | [] => some []
  | e :: es => (eval fold e).bind fun v => (evalAll fold es).map (v :: ·)

end

mutual

/-- The cells an evaluation reads. -/
def reads (fold : Option (π × Nat)) : Expr κ π → List (κ × Nat)
  | .literal _ => []
  | .name c => [(c, nameRow P i c)]
  | .field c => [(c, fieldRow P i fold c)]
  | .index c row e => reads fold e ++ ((eval P σ i fold e).bind row).toList.map (c, ·)
  | .reduce _ p e => (P.live p).flatMap fun j => reads (some (p, j)) e
  | .reduceBare _ c => (List.range (P.rowsOf c)).map (c, ·)
  | .binary _ l r => reads fold l ++ reads fold r
  | .apply _ es => readsAll fold es

def readsAll (fold : Option (π × Nat)) : List (Expr κ π) → List (κ × Nat)
  | [] => []
  | e :: es => reads fold e ++ readsAll fold es

end

end Eval

/-! ## Assignments -/

/-- `target = value`, or `target op= value`. -/
structure Assign (κ π : Type) where
  target : κ
  op : Option Op
  value : Expr κ π

section Loops

variable [DecidableEq κ] [DecidableEq π] (P : Pools κ π)

/-- `emit_column_assign_body`. -/
def Assign.write (a : Assign κ π) : Write κ Int :=
  ⟨a.target, fun σ i => (eval P σ i none a.value).bind fun v =>
    match a.op with
    | none => some v
    | some op => op.eval P (σ a.target i) v⟩

/-- The rows of a column loop: the part aligned to four, then the tail. -/
def rows (count : Nat) : List Nat :=
  let aligned := count - count % 4
  List.range aligned ++ List.range' aligned (count - aligned)

/-- `emit_whole_column_loop` on its own. -/
def Assign.sweep (a : Assign κ π) (σ : Store κ Int) : Option (Store κ Int) :=
  (rows (P.rowsOf a.target)).foldlM (fun σ i => (a.write P).step i σ) σ

/-- One loop for each assignment, in the order of the source. -/
def sequential (as : List (Assign κ π)) (σ : Store κ Int) : Option (Store κ Int) :=
  as.foldlM (fun σ a => a.sweep P σ) σ

/-- `flush_map_batch`: the first item's count is used for all. -/
def flushMapBatch (items : List (Assign κ π)) (σ : Store κ Int) : Option (Store κ Int) :=
  match items with
  | [] => some σ
  | a :: _ => (rows (P.rowsOf a.target)).foldlM
      (fun σ i => items.foldlM (fun σ b => (b.write P).step i σ) σ) σ

/-- `MAP_BATCH_MAX`. -/
def mapBatchMax : Nat := 128

/-- The batches that are flushed one after the other, `pending` being recorded. -/
def batches (pending : List (Assign κ π)) : List (Assign κ π) → List (List (Assign κ π))
  | [] => [pending]
  | a :: as =>
    if mapBatchMax ≤ pending.length then pending :: batches [a] as else batches (pending ++ [a]) as

/-- `codegen_body_fused` for a body of whole-column assignments. -/
def codegenBodyFused (body : List (Assign κ π)) (σ : Store κ Int) : Option (Store κ Int) :=
  (batches [] body).foldlM (fun σ b => flushMapBatch P b σ) σ

/-- The fused body ends in the columns of the sweeps. -/
def FusionExact (body : List (Assign κ π)) (σ : Store κ Int) : Prop :=
  ∀ σ', sequential P body σ = some σ' → codegenBodyFused P body σ = some σ'

/-! ## When fusion is exact -/

/-- The pools of the targets have the same number of rows. -/
def SameCount (items : List (Assign κ π)) : Prop :=
  ∀ a ∈ items, ∀ b ∈ items, P.rowsOf a.target = P.rowsOf b.target

/-- Row `i` of an assignment reads no cell above row `i` of a column that is assigned before it, and
none below row `i` of a column that is assigned after it. -/
def RowInOrder (before after : List κ) (a : Assign κ π) (σ : Store κ Int) (i : Nat) : Prop :=
  ∀ cell ∈ reads P σ i none a.value,
    (cell.2 < i → cell.1 ∉ after) ∧ (i < cell.2 → cell.2 < P.rowsOf a.target → cell.1 ∉ before)

/-- Every row is in order along the sweeps of the batch: when the sweep from `σ` to `σ'` comes to row
`i`, the rows below it are new. -/
def BatchInOrder (before : List κ) (σ : Store κ Int) : List (Assign κ π) → Prop
  | [] => True
  | a :: as => ∀ σ', a.sweep P σ = some σ' →
      (∀ i < P.rowsOf a.target, RowInOrder P before (as.map Assign.target) a (mix i σ' σ) i) ∧
        BatchInOrder (before ++ [a.target]) σ' as

/-- Each batch, in the store the sweeps before it end in. -/
def Fusable (σ : Store κ Int) : List (List (Assign κ π)) → Prop
  | [] => True
  | b :: bs => SameCount P b ∧ BatchInOrder P [] σ b ∧
      ∀ σ', sequential P b σ = some σ' → Fusable σ' bs

end Loops

/-! ## Evaluation depends on the cells it reads -/

theorem foldlM_ext {α β : Type} {f g : α → β → Option α} {l : List β}
    (h : ∀ a, ∀ b ∈ l, f a b = g a b) (a : α) : l.foldlM f a = l.foldlM g a := by
  induction l generalizing a with
  | nil => rfl
  | cons b l ih =>
    rw [List.foldlM_cons, List.foldlM_cons, h a b List.mem_cons_self]
    congr 1
    funext a'
    exact ih (fun a' b' hb' => h a' b' (List.mem_cons_of_mem _ hb')) a'

section Eval

variable [DecidableEq π] (P : Pools κ π) {σ τ : Store κ Int} {i : Nat}

mutual

theorem eval_congr (fold : Option (π × Nat)) (e : Expr κ π)
    (h : ∀ cell ∈ reads P σ i fold e, τ cell.1 cell.2 = σ cell.1 cell.2) :
    eval P τ i fold e = eval P σ i fold e := by
  cases e with
  | literal n => rfl
  | name c => exact congrArg some (h _ List.mem_cons_self)
  | field c => exact congrArg some (h _ List.mem_cons_self)
  | index c row e =>
    rw [reads, List.forall_mem_append] at h
    rw [eval, eval, eval_congr fold e h.1]
    refine Option.map_congr fun k hk => h.2 (c, k) ?_
    exact List.mem_map_of_mem (Option.mem_toList.mpr hk)
  | reduce m p e =>
    rw [reads] at h
    rw [eval, eval]
    refine foldlM_ext (fun acc j hj => ?_) _
    rw [eval_congr (some (p, j)) e fun cell hc => h cell (List.mem_flatMap.mpr ⟨j, hj, hc⟩)]
  | reduceBare m c =>
    rw [reads] at h
    rw [eval, eval]
    refine congrArg some (List.foldl_ext _ _ _ fun acc j hj => ?_)
    rw [h (c, j) (List.mem_map_of_mem hj)]
  | binary op l r =>
    rw [reads, List.forall_mem_append] at h
    rw [eval, eval, eval_congr fold l h.1, eval_congr fold r h.2]
  | apply f es =>
    rw [reads] at h
    rw [eval, eval, evalAll_congr fold es h]

theorem evalAll_congr (fold : Option (π × Nat)) (es : List (Expr κ π))
    (h : ∀ cell ∈ readsAll P σ i fold es, τ cell.1 cell.2 = σ cell.1 cell.2) :
    evalAll P τ i fold es = evalAll P σ i fold es := by
  cases es with
  | nil => rfl
  | cons e es =>
    rw [readsAll, List.forall_mem_append] at h
    rw [evalAll, evalAll, eval_congr fold e h.1, evalAll_congr fold es h.2]

end

/-- A row in order is insensitive to the interchange. -/
theorem insensitive_of_rowInOrder {before after : List κ} {a : Assign κ π}
    (h : RowInOrder P before after a σ i) :
    (a.write P).Insensitive (P.rowsOf a.target) i σ before after := by
  intro τ hτ
  have hval : eval P τ i none a.value = eval P σ i none a.value :=
    eval_congr P none a.value fun cell hc => hτ _ _ (h cell hc).1 (h cell hc).2
  have hself : τ a.target i = σ a.target i :=
    hτ _ _ (fun h => absurd h (Nat.lt_irrefl i)) fun h => absurd h (Nat.lt_irrefl i)
  simp only [Assign.write, hval, hself]

end Eval

/-! ## Loops and batches -/

theorem rows_eq (count : Nat) : rows count = List.range count := by
  have h : count - count % 4 + (count - (count - count % 4)) = count := by omega
  have happ := List.range'_append_1 (s := 0) (m := count - count % 4)
    (n := count - (count - count % 4))
  rw [Nat.zero_add, h] at happ
  rw [rows, List.range_eq_range', List.range_eq_range']
  exact happ

theorem flatten_batches (pending as : List (Assign κ π)) :
    (batches pending as).flatten = pending ++ as := by
  induction as generalizing pending with
  | nil => rw [batches, List.flatten_cons, List.flatten_nil]
  | cons a as ih =>
    rw [batches]
    split
    · rw [List.flatten_cons, ih, List.singleton_append]
    · rw [ih, List.append_assoc, List.singleton_append]

section Loops

variable [DecidableEq κ] [DecidableEq π] (P : Pools κ π)

theorem sweep_eq (a : Assign κ π) (σ : Store κ Int) :
    a.sweep P σ = (a.write P).sweep (P.rowsOf a.target) σ := by
  rw [Assign.sweep, rows_eq]
  rfl

theorem sequential_flatten (bs : List (List (Assign κ π))) (σ : Store κ Int) :
    sequential P bs.flatten σ = bs.foldlM (fun σ b => sequential P b σ) σ := by
  induction bs generalizing σ with
  | nil => rfl
  | cons b bs ih =>
    rw [List.flatten_cons, sequential, List.foldlM_append, List.foldlM_cons]
    congr 1
    funext τ
    exact ih τ

theorem inOrder_of_batchInOrder {n : Nat} {before : List κ} {items : List (Assign κ π)}
    {σ : Store κ Int} (hn : ∀ a ∈ items, P.rowsOf a.target = n)
    (h : BatchInOrder P before σ items) :
    InOrder n before σ (items.map (Assign.write P)) := by
  induction items generalizing before σ with
  | nil => trivial
  | cons a as ih =>
    have ha := hn a List.mem_cons_self
    intro σ' hσ'
    have hs : a.sweep P σ = some σ' := by
      rw [sweep_eq, ha]
      exact hσ'
    obtain ⟨hrow, hrest⟩ := h σ' hs
    refine ⟨?_, ih (fun b hb => hn b (List.mem_cons_of_mem _ hb)) hrest⟩
    intro i hi
    have hins := insensitive_of_rowInOrder P (hrow i (ha ▸ hi))
    rw [ha] at hins
    rwa [List.map_map]

theorem sequential_eq {n : Nat} {items : List (Assign κ π)}
    (hn : ∀ a ∈ items, P.rowsOf a.target = n) (σ : Store κ Int) :
    sequential P items σ = Arche.Lib.Interchange.sequential n (items.map (Assign.write P)) σ := by
  rw [sequential, Arche.Lib.Interchange.sequential, List.foldlM_map]
  refine foldlM_ext (fun τ a ha => ?_) σ
  rw [sweep_eq, hn a ha]

theorem flushMapBatch_eq {n : Nat} {items : List (Assign κ π)}
    (hn : ∀ a ∈ items, P.rowsOf a.target = n) (hne : items ≠ []) (σ : Store κ Int) :
    flushMapBatch P items σ = fused n (items.map (Assign.write P)) σ := by
  cases items with
  | nil => exact absurd rfl hne
  | cons a as =>
    rw [flushMapBatch, rows_eq, hn a List.mem_cons_self, fused]
    refine foldlM_ext (fun τ i _ => ?_) σ
    rw [row, List.foldlM_map]

theorem flushMapBatch_of_inOrder {items : List (Assign κ π)} {σ σ' : Store κ Int}
    (hsame : SameCount P items) (hord : BatchInOrder P [] σ items)
    (hseq : sequential P items σ = some σ') : flushMapBatch P items σ = some σ' := by
  cases items with
  | nil => exact hseq
  | cons a as =>
    have hn : ∀ b ∈ a :: as, P.rowsOf b.target = P.rowsOf a.target :=
      fun b hb => hsame b hb a List.mem_cons_self
    rw [flushMapBatch_eq P hn (List.cons_ne_nil _ _)]
    rw [sequential_eq P hn] at hseq
    exact fused_of_inOrder hseq (inOrder_of_batchInOrder P hn hord)

/-- If in every batch the pools have the same number of rows and every row is in order, the fused
body leaves every column as the sweeps do. -/
theorem fusionExact_of_fusable (body : List (Assign κ π)) (σ : Store κ Int)
    (h : Fusable P σ (batches [] body)) : FusionExact P body σ := by
  intro σ' hseq
  have hflat : body = (batches [] body).flatten := (flatten_batches [] body).symm
  rw [hflat, sequential_flatten] at hseq
  rw [codegenBodyFused]
  generalize batches [] body = bs at h hseq
  induction bs generalizing σ with
  | nil => exact hseq
  | cons b bs ih =>
    obtain ⟨hsame, hord, hrest⟩ := h
    obtain ⟨τ, hτ, hseq⟩ := Option.bind_eq_some_iff.mp hseq
    rw [List.foldlM_cons, flushMapBatch_of_inOrder P hsame hord hτ]
    exact ih τ (hrest τ hτ) hseq

end Loops

end Model

/-! ## Two bodies over a pool of two rows -/

inductive Col
  | x
  | y
  | z
deriving DecidableEq, Repr

def pair : Pools Col Unit where
  pool _ := ()
  count _ := 2
  dead _ _ := false
  singleton _ := false
  div a b := if b = 0 then none else some (a.tdiv b)
  mod a b := if b = 0 then none else some (a.tmod b)

/-- `x` is `0, 0`, `y` is `5, 7`, `z` is `0, 0`. -/
def contents : Store Col Int
  | .y, 0 => 5
  | .y, 1 => 7
  | _, _ => 0

/-- The element at an explicit row, under the policy that aborts. -/
def elem (c : Col) (k : Int) : Expr Col Unit :=
  .index c (fun k => if 0 ≤ k ∧ k < 2 then some k.toNat else none) (.literal k)

/-- `x += y; z = x + y[1]` -/
def inOrderBody : List (Assign Col Unit) :=
  [⟨.x, some .add, .name .y⟩, ⟨.z, none, .binary .add (.name .x) (elem .y 1)⟩]

theorem inOrderBody_exact :
    (sequential pair inOrderBody contents).isSome = true ∧
      FusionExact pair inOrderBody contents := by
  refine ⟨by decide, fusionExact_of_fusable pair inOrderBody contents
    ⟨fun _ _ _ _ => rfl, ?_, fun _ _ => trivial⟩⟩
  intro σ' _
  refine ⟨?_, ?_⟩
  · intro i _ cell hc
    cases List.mem_singleton.mp hc
    exact ⟨fun h => absurd h (Nat.lt_irrefl i), fun h => absurd h (Nat.lt_irrefl i)⟩
  · intro σ'' _
    refine ⟨?_, trivial⟩
    intro i _ cell hc
    have hcell : cell = (.x, i) ∨ cell = (.y, 1) := by
      rcases List.mem_cons.mp hc with h | h
      · exact .inl h
      · exact .inr (List.mem_singleton.mp h)
    rcases hcell with rfl | rfl
    · exact ⟨fun h => absurd h (Nat.lt_irrefl i), fun h => absurd h (Nat.lt_irrefl i)⟩
    · exact ⟨fun _ => List.not_mem_nil, fun _ _ => by decide⟩

/-- `x = y; z = x[1]` -/
def gatherBody : List (Assign Col Unit) := [⟨.x, none, .name .y⟩, ⟨.z, none, elem .x 1⟩]

/-- The fused loop reads `x[1]` before row 1 of `x` is written. -/
theorem not_fusionExact :
    ¬∀ (P : Pools Col Unit) (body : List (Assign Col Unit)) (σ : Store Col Int),
      FusionExact P body σ := by
  intro h
  have hseq : (sequential pair gatherBody contents).map (fun σ => σ .z 0) = some 7 := by decide
  have hfused : (codegenBodyFused pair gatherBody contents).map (fun σ => σ .z 0) = some 0 := by
    decide
  obtain ⟨σ', hσ', hz⟩ := Option.map_eq_some_iff.mp hseq
  rw [h pair gatherBody contents σ' hσ', Option.map_some, hz] at hfused
  exact absurd hfused (by decide)

end Arche.Codegen.MapFusion
