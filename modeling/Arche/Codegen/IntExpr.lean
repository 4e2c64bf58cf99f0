import Arche.Lib.Word
import Mathlib.Tactic.Common

/-!
# Integer expressions

`binary_type_id` gives an operation on two integers a type: everything below `int` is
promoted to `int`, above that the wider operand wins and the left one wins a tie.
`codegen_expression` computes the same operation in a type of its own choice, the larger
of the two widths with the sign of the left operand, and stamps that type on the tree.

`eval` is the meaning the static types give to a body, `gen` is what the emitted
instructions compute. Both leave a record of the work done: every operation, conversion
and binding with its type, its operands and its result.

1. `Expr.matches_of_gen`, `Expr.gen_of_matches`: where the records agree, expression by
   expression.
2. `computed_iff`: a body is computed in its static types exactly if the types of its
   operands match and no signed quotient leaves its type.
-/

namespace Arche.Codegen.IntExpr

open Arche.Lib

/-! ## Types -/

/-- The integer types: `byte`, `int` and the types `iN` and `uN`. -/
structure IntTy extends Word where
  known : width ∈ [8, 16, 32, 64, 128]
deriving DecidableEq, Repr

theorem IntTy.eq_of_toWord {s t : IntTy} (h : s.toWord = t.toWord) : s = t := by
  cases s
  cases t
  cases h
  rfl

def int : IntTy := ⟨⟨32, true⟩, by decide⟩

/-- The integer case of `binary_type_id`. -/
def binaryTypeId (lt rt : IntTy) : IntTy :=
  let pl := if lt.width < 32 then 32 else lt.width
  let pr := if rt.width < 32 then 32 else rt.width
  if pl ≤ 32 ∧ pr ≤ 32 then int
  else if pl ≥ pr then lt else rt

theorem max_known {a b : Nat} {ws : List Nat} (ha : a ∈ ws) (hb : b ∈ ws) : max a b ∈ ws := by
  rw [Nat.max_def]
  split
  · exact hb
  · exact ha

/-- The type codegen computes an operation in (`int_width`, `int_signed`). -/
def pick (lt rt : IntTy) : IntTy :=
  ⟨⟨max lt.width rt.width, lt.signed⟩, max_known lt.known rt.known⟩

/-! ## Bodies -/

inductive ArithOp
  | add | sub | mul | div | mod
deriving DecidableEq, Repr

inductive CmpOp
  | eq | neq | lt | gt | lte | gte
deriving DecidableEq, Repr

mutual

/-- Expressions with the types semantic analysis recorded. A function is what it returns for the
values of its parameters. A named constant is a literal under a cast to the type of the constant. -/
inductive Expr
  | lit (n : Int)
  | name (x : String) (t : IntTy)
  | neg (e : Expr)
  | arith (op : ArithOp) (l r : Expr)
  | compare (op : CmpOp) (l r : Expr)
  | cast (t : IntTy) (e : Expr)
  | call (ret : IntTy) (f : List Int → Int) (args : Args)

inductive Args
  | nil
  | cons (param : IntTy) (e : Expr) (rest : Args)

end

/-- Bindings, and the expression whose value is used. -/
inductive Body
  | value (e : Expr)
  | bind (x : String) (ann : Option IntTy) (e : Expr) (rest : Body)

/-- `sem_expr_type_id`. -/
def Expr.typeId : Expr → IntTy
  | .lit _ => int
  | .name _ t => t
  | .neg e => e.typeId
  | .arith _ l r => binaryTypeId l.typeId r.typeId
  | .compare _ _ _ => int
  | .cast t _ => t
  | .call ret _ _ => ret

/-- `resolved` once codegen is through with the expression: the type of an arithmetic operation
is stamped over the recorded one. -/
def Expr.resolved : Expr → IntTy
  | .arith _ l r => pick l.resolved r.resolved
  | e => e.typeId

/-! ## Records -/

/-- One piece of work: its type, what went in, what came out. -/
inductive Step
  | neg (t : Word) (a r : Int)
  | arith (op : ArithOp) (t : Word) (a b r : Int)
  | compare (op : CmpOp) (t : Word) (a b r : Int)
  | cast (t : Word) (v : Int)
  | arg (t : Word) (v : Int)
  | bind (x : String) (t : Word) (v : Int)
  | value (t : Word) (v : Int)
deriving DecidableEq, Repr

/-- A record has the shape of the tree the work was done for. -/
inductive Record
  | leaf
  | node (s : Step) (l r : Record)
deriving DecidableEq, Repr

/-! ## Operations -/

/-- Quotients round towards zero. A division by zero has no value here: what becomes of it is
the matter of its failure policy. -/
def ArithOp.run : ArithOp → Int → Int → Option Int
  | .add, a, b => some (a + b)
  | .sub, a, b => some (a - b)
  | .mul, a, b => some (a * b)
  | .div, a, b => if b = 0 then none else some (a.tdiv b)
  | .mod, a, b => if b = 0 then none else some (a.tmod b)

/-- `sdiv` and `srem` are undefined if the quotient does not fit. -/
def ArithOp.Undefined (op : ArithOp) (t : Word) (a b : Int) : Prop :=
  (op = .div ∨ op = .mod) ∧ ¬ t.Holds (a.tdiv b)

instance (op : ArithOp) (t : Word) (a b : Int) : Decidable (op.Undefined t a b) :=
  inferInstanceAs (Decidable (_ ∧ _))

/-- The instruction for an operation of type `t`. -/
def ArithOp.emit (op : ArithOp) (t : Word) (a b : Int) : Option Int :=
  if op.Undefined t a b then none else op.run a b

def CmpOp.holds : CmpOp → Int → Int → Bool
  | .eq, a, b => a = b
  | .neq, a, b => a ≠ b
  | .lt, a, b => a < b
  | .gt, a, b => a > b
  | .lte, a, b => a ≤ b
  | .gte, a, b => a ≥ b

/-- The operator with its sides exchanged. -/
def CmpOp.swap : CmpOp → CmpOp
  | .eq => .eq
  | .neq => .neq
  | .lt => .gt
  | .gt => .lt
  | .lte => .gte
  | .gte => .lte

def truth (q : Bool) : Int := if q then 1 else 0

/-! ## The meaning the static types give -/

abbrev Env := List (String × IntTy × Int)

mutual

/-- Operands are converted by value to the type of the operation. A comparison is made in the type
an arithmetic operation on its operands would have; a literal is worth what is written. -/
def Expr.eval (ρ : Env) : Expr → Option (Record × Int)
  | .lit n => some (.leaf, n)
  | .name x t =>
    match ρ.lookup x with
    | some (t', v) => if t' = t then some (.leaf, v) else none
    | none => none
  | .neg e => do
    let (w, v) ← e.eval ρ
    let t := e.typeId
    let a := t.wrap v
    some (.node (.neg t.toWord a (t.wrap (-a))) w .leaf, t.wrap (-a))
  | .arith op l r => do
    let (wl, x) ← l.eval ρ
    let (wr, y) ← r.eval ρ
    let t := binaryTypeId l.typeId r.typeId
    let a := t.wrap x
    let b := t.wrap y
    let c ← op.run a b
    some (.node (.arith op t.toWord a b (t.wrap c)) wl wr, t.wrap c)
  | .compare op l r => do
    let (wl, x) ← l.eval ρ
    let (wr, y) ← r.eval ρ
    let t := binaryTypeId l.typeId r.typeId
    let a := t.wrap x
    let b := t.wrap y
    let q := truth (op.holds a b)
    some (.node (.compare op t.toWord a b q) wl wr, q)
  | .cast t e => do
    let (w, v) ← e.eval ρ
    some (.node (.cast t.toWord (t.wrap v)) w .leaf, t.wrap v)
  | .call ret f args => do
    let (w, vs) ← args.eval ρ
    some (w, ret.wrap (f vs))

def Args.eval (ρ : Env) : Args → Option (Record × List Int)
  | .nil => some (.leaf, [])
  | .cons p e rest => do
    let (w, v) ← e.eval ρ
    let (ws, vs) ← rest.eval ρ
    some (.node (.arg p.toWord (p.wrap v)) w ws, p.wrap v :: vs)

end

def Body.eval (ρ : Env) : Body → Option Record
  | .value e => do
    let (w, v) ← e.eval ρ
    some (.node (.value e.typeId.toWord (e.typeId.wrap v)) w .leaf)
  | .bind x ann e rest => do
    let (w, v) ← e.eval ρ
    let t := ann.getD e.typeId
    let ws ← rest.eval ((x, t, t.wrap v) :: ρ)
    some (.node (.bind x t.toWord (t.wrap v)) w ws)

/-! ## The emitted code -/

/-- What `codegen_expression` leaves in `result_buf`: the text of a constant, or a register. Only
the residue of the content of a register matters; instructions choose how they read it. -/
inductive Operand
  | text (n : Int)
  | reg (width : Nat) (x : Int)
deriving DecidableEq, Repr

/-- The operand of an instruction of the given width. A register of another width is refused, a
constant takes the width it stands at. -/
def Operand.at (width : Nat) : Operand → Option Int
  | .text n => some n
  | .reg w x => if w = width then some x else none

/-- `emit_int_convert`: `sext` or `zext` to a larger width, `trunc` to a smaller one. -/
def emitIntConvert (o : Operand) (t : Word) (width : Nat) : Option Operand :=
  if t.width = width then some o
  else
    match o with
    | .text n => some (.text n)
    | .reg w x =>
      if w = t.width then some (.reg width (if t.width < width then t.wrap x else x)) else none

/-- The operand `o` of type `t`, converted. -/
def operand (o : Operand) (t : Word) (width : Nat) : Option Int :=
  (emitIntConvert o t width).bind (Operand.at width)

abbrev Slots := List (String × Nat × Int)

mutual

def Expr.gen (σ : Slots) : Expr → Option (Record × Operand)
  | .lit n => some (.leaf, .text n)
  | .name x _ =>
    match σ.lookup x with
    | some (w, c) => some (.leaf, .reg w c)
    | none => none
  -- `sub i32 0, x`, whatever the type of the operand
  | .neg e => do
    let (w, o) ← e.gen σ
    let x ← o.at 32
    let t : Word := ⟨32, e.typeId.signed⟩
    let a := t.wrap x
    some (.node (.neg t a (t.wrap (-a))) w .leaf, .reg 32 (-a))
  | .arith op l r => do
    let (wl, ol) ← l.gen σ
    let (wr, or) ← r.gen σ
    let t := pick l.resolved r.resolved
    let x ← operand ol l.resolved.toWord t.width
    let y ← operand or r.resolved.toWord t.width
    let a := t.wrap x
    let b := t.wrap y
    let c ← op.emit t.toWord a b
    some (.node (.arith op t.toWord a b (t.wrap c)) wl wr, .reg t.width c)
  | .compare op l r => do
    let (wl, ol) ← l.gen σ
    let (wr, or) ← r.gen σ
    let t := pick l.resolved r.resolved
    let x ← operand ol l.resolved.toWord t.width
    let y ← operand or r.resolved.toWord t.width
    let a := t.wrap x
    let b := t.wrap y
    let q := truth (op.holds a b)
    some (.node (.compare op t.toWord a b q) wl wr, .reg 32 q)
  | .cast t e => do
    let (w, o) ← e.gen σ
    let o' ← emitIntConvert o e.resolved.toWord t.width
    let x ← o'.at t.width
    some (.node (.cast t.toWord (t.wrap x)) w .leaf, o')
  | .call ret f args => do
    let (w, vs) ← args.gen σ
    some (w, .reg ret.width (f vs))

def Args.gen (σ : Slots) : Args → Option (Record × List Int)
  | .nil => some (.leaf, [])
  | .cons p e rest => do
    let (w, o) ← e.gen σ
    let x ← operand o e.resolved.toWord p.width
    let (ws, vs) ← rest.gen σ
    some (.node (.arg p.toWord (p.wrap x)) w ws, p.wrap x :: vs)

end

/-- The slot of a binding: its width and its content. The value is converted to the annotated type
only if that type is not 32 bits wide; the slot is as wide as the value otherwise. -/
def slot (ann : Option IntTy) (t : Word) (o : Operand) : Option (Nat × Int) :=
  match ann with
  | some a =>
    if a.width ≠ 32 then (operand o t a.width).map (Prod.mk a.width)
    else (o.at t.width).map (Prod.mk t.width)
  | none => (o.at t.width).map (Prod.mk t.width)

def Body.gen (σ : Slots) : Body → Option Record
  | .value e => do
    let (w, o) ← e.gen σ
    let x ← o.at e.resolved.width
    some (.node (.value e.resolved.toWord (e.resolved.wrap x)) w .leaf)
  | .bind x ann e rest => do
    let (w, o) ← e.gen σ
    let (width, c) ← slot ann e.resolved.toWord o
    let t : Word := ⟨width, (ann.getD e.typeId).signed⟩
    let ws ← rest.gen ((x, width, c) :: σ)
    some (.node (.bind x t (t.wrap c)) w ws)

/-! ## Comparisons -/

/-- What the code answers to a comparison of a value of type `lt` with a value of type `rt`. -/
def icmp (op : CmpOp) (lt rt : IntTy) (a b : Int) : Bool :=
  op.holds ((pick lt rt).wrap a) ((pick lt rt).wrap b)

/-- Exchanging the sides of a comparison never changes the answer. -/
def Mirrors (op : CmpOp) (lt rt : IntTy) : Prop :=
  ∀ a b, lt.Holds a → rt.Holds b → icmp op lt rt a b = icmp op.swap rt lt b a

mutual

/-- The comparisons of an expression, with the types codegen finds at the operands. -/
def Expr.comparisons : Expr → List (CmpOp × IntTy × IntTy)
  | .lit _ => []
  | .name _ _ => []
  | .neg e => e.comparisons
  | .arith _ l r => l.comparisons ++ r.comparisons
  | .compare op l r => l.comparisons ++ r.comparisons ++ [(op, l.resolved, r.resolved)]
  | .cast _ e => e.comparisons
  | .call _ _ args => args.comparisons

def Args.comparisons : Args → List (CmpOp × IntTy × IntTy)
  | .nil => []
  | .cons _ e rest => e.comparisons ++ rest.comparisons

end

def Body.comparisons : Body → List (CmpOp × IntTy × IntTy)
  | .value e => e.comparisons
  | .bind _ _ e rest => e.comparisons ++ rest.comparisons

/-! ## The condition -/

/-- The type codegen picks is the static one: one side is as wide as `int`, and the left side has
the sign of the result. -/
def Balanced (lt rt : IntTy) : Prop :=
  (max lt.width rt.width = 32 ∧ lt.signed) ∨
    (32 < max lt.width rt.width ∧ (rt.width ≤ lt.width ∨ lt.signed = rt.signed))

instance (lt rt : IntTy) : Decidable (Balanced lt rt) := inferInstanceAs (Decidable (_ ∨ _))

/-- A literal under casts: what codegen prints for it, and what it is worth. -/
def Expr.constant : Expr → Option (Int × Int)
  | .lit n => some (n, n)
  | .cast t e => e.constant.map fun (n, v) => (n, t.wrap v)
  | _ => none

/-- Printed at the given width, a literal under casts is what the casts make of it. -/
def Expr.Carries (e : Expr) (width : Nat) : Prop :=
  ∀ c ∈ e.constant, c.1 ≡ c.2 [ZMOD (2 ^ width : Nat)]

instance (e : Expr) (width : Nat) : Decidable (e.Carries width) :=
  inferInstanceAs (Decidable (∀ c ∈ e.constant, c.1 ≡ c.2 [ZMOD (2 ^ width : Nat)]))

mutual

/-- The types of the operands match. -/
def Expr.Matches : Expr → Prop
  | .lit _ => True
  | .name _ _ => True
  | .neg e => e.Matches ∧ e.typeId.width = 32
  | .arith _ l r =>
    l.Matches ∧ r.Matches ∧ Balanced l.typeId r.typeId ∧
      l.Carries (max l.typeId.width r.typeId.width) ∧ r.Carries (max l.typeId.width r.typeId.width)
  | .compare op l r =>
    l.Matches ∧ r.Matches ∧ Balanced l.typeId r.typeId ∧
      l.Carries (max l.typeId.width r.typeId.width) ∧
      r.Carries (max l.typeId.width r.typeId.width) ∧
      (op = .eq ∨ op = .neq ∨ l.typeId.signed = r.typeId.signed)
  | .cast t e => e.Matches ∧ e.Carries t.width
  | .call _ _ args => args.Matches

def Args.Matches : Args → Prop
  | .nil => True
  | .cons p e rest => e.Matches ∧ e.Carries p.width ∧ rest.Matches

end

def Body.Matches : Body → Prop
  | .value e => e.Matches
  | .bind _ ann e rest =>
    e.Matches ∧
      (∀ t ∈ ann, if t.width = 32 then e.typeId.width = 32 else e.Carries t.width) ∧
      rest.Matches

def Step.Defined : Step → Prop
  | .arith op t a b _ => ¬ op.Undefined t a b
  | _ => True

/-- No quotient leaves its type. -/
def Record.Defined : Record → Prop
  | .leaf => True
  | .node s l r => s.Defined ∧ l.Defined ∧ r.Defined

/-! ## What codegen picks -/

section

variable {lt rt : IntTy}

theorem binaryTypeId_eq (lt rt : IntTy) : binaryTypeId lt rt =
    if lt.width ≤ 32 ∧ rt.width ≤ 32 then int else if rt.width ≤ lt.width then lt else rt := by
  have hpromote (w : Nat) : (if w < 32 then 32 else w) = max 32 w := by
    split <;> omega
  unfold binaryTypeId
  simp only [hpromote]
  split_ifs <;> first | rfl | omega

theorem pick_eq_iff (lt rt : IntTy) :
    (pick lt rt).toWord = (binaryTypeId lt rt).toWord ↔ Balanced lt rt := by
  have hpick : (pick lt rt).toWord = ⟨max lt.width rt.width, lt.signed⟩ := rfl
  have hword {a b : Word} : a = b ↔ a.width = b.width ∧ a.signed = b.signed := by
    cases a
    cases b
    exact Word.mk.injEq .. ▸ Iff.rfl
  rw [hpick, binaryTypeId_eq, hword]
  unfold Balanced
  dsimp only
  split_ifs with hsmall hle
  · have hmax : ¬ 32 < max lt.width rt.width := by omega
    simp [int, hmax]
  · have hwide : 32 < lt.width := by omega
    simp [hle, hwide]
  · have hmax : max lt.width rt.width = rt.width := Nat.max_eq_right (by omega)
    have hwide : 32 < rt.width := by omega
    simp [hmax, hle, hwide, hwide.ne']

theorem wrap_zero (t : Word) : t.wrap 0 = 0 := by
  unfold Word.wrap
  split
  · exact Int.zero_bmod
  · exact Int.zero_emod _

/-- All bits set are below zero for one sign and above it for the other. -/
theorem wrap_neg_one (t : IntTy) :
    if t.signed then t.wrap (-1) = -1 else 0 < t.wrap (-1) := by
  have h : ∀ w ∈ [8, 16, 32, 64, 128], ∀ s : Bool,
      if s then (Word.mk w s).wrap (-1) = -1 else 0 < (Word.mk w s).wrap (-1) := by
    decide
  exact h t.width t.known t.signed

theorem CmpOp.holds_swap (op : CmpOp) (a b : Int) : op.swap.holds b a = op.holds a b := by
  cases op <;> simp [CmpOp.holds, CmpOp.swap, eq_comm]

theorem CmpOp.holds_of_sign {op : CmpOp} (heq : op ≠ .eq) (hneq : op ≠ .neq) {m n : Int} (hm : m < 0)
    (hn : 0 < n) : op.holds m 0 ≠ op.holds n 0 := by
  cases op with
  | eq => exact absurd rfl heq
  | neq => exact absurd rfl hneq
  | lt | gt | lte | gte =>
    simp only [CmpOp.holds, ne_eq, decide_eq_decide]
    omega

/-- Codegen takes the sign of the left side, so the sides have to have the same one. -/
theorem mirrors_iff {op : CmpOp} :
    Mirrors op lt rt ↔ op = .eq ∨ op = .neq ∨ lt.signed = rt.signed := by
  constructor
  · intro h
    by_contra hnot
    obtain ⟨heq, hneq, hsign⟩ : op ≠ .eq ∧ op ≠ .neq ∧ lt.signed ≠ rt.signed := by
      simpa only [not_or] using hnot
    have hl := wrap_neg_one (pick lt rt)
    have hr := wrap_neg_one (pick rt lt)
    have hholds {t : IntTy} (ht : t.signed = true) : t.Holds (-1) := by
      have hone := wrap_neg_one t
      rwa [if_pos ht] at hone
    -- all bits set on the signed side against zero on the other
    cases hsl : lt.signed with
    | true =>
      have hsr : rt.signed = false := by
        cases hr : rt.signed with
        | true => exact absurd (hsl.trans hr.symm) hsign
        | false => rfl
      have hanswer := h (-1) 0 (hholds hsl) (wrap_zero _)
      unfold icmp at hanswer
      rw [wrap_zero, wrap_zero, CmpOp.holds_swap] at hanswer
      rw [show (pick lt rt).signed = true from hsl, if_pos rfl] at hl
      rw [show (pick rt lt).signed = false from hsr, if_neg Bool.false_ne_true] at hr
      exact CmpOp.holds_of_sign heq hneq (by omega) hr hanswer
    | false =>
      have hsr : rt.signed = true := by
        cases hr : rt.signed with
        | true => rfl
        | false => exact absurd (hsl.trans hr.symm) hsign
      have hanswer := h 0 (-1) (wrap_zero _) (hholds hsr)
      unfold icmp at hanswer
      rw [wrap_zero, wrap_zero, ← CmpOp.holds_swap op] at hanswer
      rw [show (pick lt rt).signed = false from hsl, if_neg Bool.false_ne_true] at hl
      rw [show (pick rt lt).signed = true from hsr, if_pos rfl] at hr
      refine CmpOp.holds_of_sign ?_ ?_ (by omega) hl hanswer.symm
      · cases op <;> first | exact absurd rfl heq | nofun
      · cases op <;> first | exact absurd rfl hneq | nofun
  · intro h a b _ _
    have hwidth : (pick rt lt).width = (pick lt rt).width := Nat.max_comm ..
    have hresidue : (pick rt lt).wrap b = (pick rt lt).wrap a ↔
        (pick lt rt).wrap b = (pick lt rt).wrap a := by
      rw [Word.wrap_eq_iff, Word.wrap_eq_iff, hwidth]
    unfold icmp
    rcases h with rfl | rfl | h
    · simp only [CmpOp.swap, CmpOp.holds, decide_eq_decide]
      rw [hresidue]
      exact eq_comm
    · simp only [CmpOp.swap, CmpOp.holds, decide_eq_decide, ne_eq]
      rw [hresidue]
      exact not_congr eq_comm
    · have hpick : (pick rt lt).toWord = (pick lt rt).toWord := by
        unfold pick
        dsimp only
        rw [h, Nat.max_comm]
      rw [hpick, CmpOp.holds_swap]

end

/-! ## Operands -/

section

variable {e : Expr} {v : Int} {o : Operand}

/-- The operand stands for the value `v` of the expression. -/
inductive Reads (e : Expr) (v : Int) : Operand → Prop
  | text {n : Int} (hconst : e.constant = some (n, v)) (h : e.typeId.wrap n = e.typeId.wrap v) :
      Reads e v (.text n)
  | reg {x : Int} (hconst : e.constant = none) (h : e.typeId.wrap x = v) :
      Reads e v (.reg e.typeId.width x)

theorem Reads.at (h : Reads e v o) :
    ∃ x, o.at e.typeId.width = some x ∧ e.typeId.wrap x = e.typeId.wrap v := by
  cases h with
  | text hconst h => exact ⟨_, rfl, h⟩
  | @reg x hconst h =>
    refine ⟨x, if_pos rfl, ?_⟩
    rw [← h, Word.wrap_wrap]

/-- A register keeps its value when it is converted, a constant keeps its text. -/
theorem Reads.convert (h : Reads e v o) (width : Nat) :
    ∃ o' x, emitIntConvert o e.typeId.toWord width = some o' ∧ o'.at width = some x ∧
      (∀ t : Word, t.width = width → (t.wrap x = t.wrap v ↔ e.Carries width)) ∧
      (e.constant = some (x, v) ∧ o' = .text x ∨ e.constant = none ∧ o' = .reg width x) := by
  cases h with
  | @text n hconst h =>
    refine ⟨.text n, n, ?_, rfl, ?_, .inl ⟨hconst, rfl⟩⟩
    · unfold emitIntConvert
      split <;> rfl
    · rintro t rfl
      rw [Word.wrap_eq_iff]
      unfold Expr.Carries
      rw [hconst]
      simp
  | @reg x hconst h =>
    have hcarries : e.Carries width := by
      unfold Expr.Carries
      rw [hconst]
      nofun
    unfold emitIntConvert
    split
    · next hsame =>
      refine ⟨_, x, rfl, if_pos hsame, ?_, .inr ⟨hconst, by rw [hsame]⟩⟩
      intro t ht
      rw [← h, Word.wrap_wrap_of_le (by omega)]
      simpa using hcarries
    · dsimp only
      rw [if_pos rfl]
      refine ⟨_, _, rfl, if_pos rfl, ?_, .inr ⟨hconst, rfl⟩⟩
      intro t ht
      split
      · rw [h]
        simpa using hcarries
      · rw [← h, Word.wrap_wrap_of_le (by omega)]
        simpa using hcarries

theorem Reads.operand (h : Reads e v o) (width : Nat) :
    ∃ x, operand o e.typeId.toWord width = some x ∧
      ∀ t : Word, t.width = width → (t.wrap x = t.wrap v ↔ e.Carries width) := by
  obtain ⟨o', x, hconv, hat, hcarries, -⟩ := h.convert width
  refine ⟨x, ?_, hcarries⟩
  unfold IntExpr.operand
  rw [hconv]
  exact hat

/-- The operands of an instruction are those of the operation. -/
theorem Reads.operands {l r : Expr} {a b : Int} {ol or : Operand} (hl : Reads l a ol)
    (hr : Reads r b or) :
    ∃ x y, IntExpr.operand ol l.typeId.toWord (pick l.typeId r.typeId).width = some x ∧
      IntExpr.operand or r.typeId.toWord (pick l.typeId r.typeId).width = some y ∧
      ((pick l.typeId r.typeId).toWord = (binaryTypeId l.typeId r.typeId).toWord ∧
        (pick l.typeId r.typeId).wrap x = (binaryTypeId l.typeId r.typeId).wrap a ∧
        (pick l.typeId r.typeId).wrap y = (binaryTypeId l.typeId r.typeId).wrap b ↔
      Balanced l.typeId r.typeId ∧ l.Carries (max l.typeId.width r.typeId.width) ∧
        r.Carries (max l.typeId.width r.typeId.width)) := by
  obtain ⟨x, hx, hcarryl⟩ := hl.operand (pick l.typeId r.typeId).width
  obtain ⟨y, hy, hcarryr⟩ := hr.operand (pick l.typeId r.typeId).width
  refine ⟨x, y, hx, hy, ?_⟩
  rw [← pick_eq_iff]
  refine and_congr_right fun hpick => ?_
  rw [← hpick, hcarryl _ rfl, hcarryr _ rfl]
  exact Iff.rfl

end

theorem Reads.cast {e : Expr} {v x : Int} {t : IntTy} {o : Operand}
    (hkind : e.constant = some (x, v) ∧ o = .text x ∨ e.constant = none ∧ o = .reg t.width x)
    (h : t.wrap x = t.wrap v) : Reads (.cast t e) (t.wrap v) o := by
  rcases hkind with ⟨hconst, rfl⟩ | ⟨hconst, rfl⟩
  · refine .text ?_ ?_
    · rw [Expr.constant, hconst]
      rfl
    · rw [Expr.typeId, h, Word.wrap_wrap]
  · refine .reg ?_ h
    rw [Expr.constant, hconst]
    rfl

theorem ArithOp.emit_eq_some {op : ArithOp} {t : Word} {a b c : Int} :
    op.emit t a b = some c ↔ ¬ op.Undefined t a b ∧ op.run a b = some c := by
  unfold ArithOp.emit
  split
  · simp [*]
  · simp [*]

theorem wrap_truth (q : Bool) : int.wrap (truth q) = truth q := by
  cases q <;> decide

/-! ## Where the records agree -/

/-- Every slot has the width of the type of its variable, and holds its value. -/
def Fits (ρ : Env) (σ : Slots) : Prop :=
  ∀ x t v, ρ.lookup x = some (t, v) → ∃ c, σ.lookup x = some (t.width, c) ∧ t.wrap c = v

mutual

theorem Expr.matches_of_gen (e : Expr) {ρ : Env} {σ : Slots} (hρ : Fits ρ σ) {w : Record} {v : Int}
    {o : Operand} (heval : e.eval ρ = some (w, v)) (hgen : e.gen σ = some (w, o))
    (hm : ∀ c ∈ e.comparisons, Mirrors c.1 c.2.1 c.2.2) :
    e.Matches ∧ w.Defined ∧ Reads e v o ∧ e.resolved = e.typeId := by
  cases e with
  | lit n =>
    simp only [Expr.eval, Expr.gen, Option.some.injEq, Prod.mk.injEq] at heval hgen
    obtain ⟨rfl, rfl⟩ := heval
    obtain ⟨-, rfl⟩ := hgen
    exact ⟨trivial, trivial, .text rfl rfl, rfl⟩
  | name x t =>
    simp only [Expr.eval] at heval
    split at heval
    · next t' v' hlook =>
      split at heval
      · next ht =>
        subst ht
        obtain ⟨c, hslot, hc⟩ := hρ x t' v' hlook
        simp only [Option.some.injEq, Prod.mk.injEq] at heval
        obtain ⟨rfl, rfl⟩ := heval
        simp only [Expr.gen, hslot, Option.some.injEq, Prod.mk.injEq, true_and] at hgen
        subst hgen
        exact ⟨trivial, trivial, .reg rfl hc, rfl⟩
      · cases heval
    · cases heval
  | neg e =>
    simp only [Expr.eval, Expr.gen, Option.bind_eq_bind, Option.bind_eq_some_iff, Prod.exists,
      Option.some.injEq, Prod.mk.injEq] at heval hgen
    obtain ⟨w', x, heval, rfl, rfl⟩ := heval
    obtain ⟨w'', o', hgen, y, hy, hw, rfl⟩ := hgen
    obtain ⟨⟨ht, ha, -⟩, rfl, -⟩ := by simpa only [Record.node.injEq, Step.neg.injEq] using hw
    obtain ⟨hmatch, hdef, hreads, -⟩ := Expr.matches_of_gen e hρ heval hgen hm
    have hwidth : e.typeId.width = 32 := (congrArg Word.width ht).symm
    refine ⟨⟨hmatch, hwidth⟩, ⟨trivial, hdef, trivial⟩, ?_, rfl⟩
    rw [ht, ← hwidth]
    refine .reg rfl ?_
    rw [ht] at ha
    rw [ha]
    rfl
  | arith op l r =>
    simp only [Expr.eval, Expr.gen, Option.bind_eq_bind, Option.bind_eq_some_iff, Prod.exists,
      Option.some.injEq, Prod.mk.injEq] at heval hgen
    obtain ⟨wl, a, hl, wr, b, hr, c, hrun, rfl, rfl⟩ := heval
    obtain ⟨wl', ol, hgl, wr', or, hgr, x, hx, y, hy, c', hemit, hw, rfl⟩ := hgen
    obtain ⟨⟨ht, ha, hb, hc⟩, rfl, rfl⟩ := by
      simpa only [Record.node.injEq, Step.arith.injEq, true_and] using hw
    obtain ⟨hml, hdl, hrl, hresl⟩ := Expr.matches_of_gen l hρ hl hgl fun c hc =>
      hm c (List.mem_append_left _ hc)
    obtain ⟨hmr, hdr, hrr, hresr⟩ := Expr.matches_of_gen r hρ hr hgr fun c hc =>
      hm c (List.mem_append_right _ hc)
    rw [hresl, hresr] at hx hy ht ha hb hc hemit
    obtain ⟨x', y', hx', hy', hagree⟩ := hrl.operands hrr
    obtain rfl : x' = x := Option.some.inj (hx'.symm.trans hx)
    obtain rfl : y' = y := Option.some.inj (hy'.symm.trans hy)
    have hpick := IntTy.eq_of_toWord ht
    obtain ⟨hdefined, hrun'⟩ := ArithOp.emit_eq_some.mp hemit
    rw [ha, hb, ht] at hdefined
    rw [ha, hb, hrun, Option.some.injEq] at hrun'
    subst hrun'
    refine ⟨⟨hml, hmr, hagree.mp ⟨ht, ha, hb⟩⟩, ⟨hdefined, hdl, hdr⟩, ?_, ?_⟩
    · rw [hresl, hresr, hpick]
      exact .reg rfl rfl
    · rw [Expr.resolved, Expr.typeId, hresl, hresr, hpick]
  | compare op l r =>
    simp only [Expr.eval, Expr.gen, Option.bind_eq_bind, Option.bind_eq_some_iff, Prod.exists,
      Option.some.injEq, Prod.mk.injEq] at heval hgen
    obtain ⟨wl, a, hl, wr, b, hr, rfl, rfl⟩ := heval
    obtain ⟨wl', ol, hgl, wr', or, hgr, x, hx, y, hy, hw, rfl⟩ := hgen
    obtain ⟨⟨ht, ha, hb, -⟩, rfl, rfl⟩ := by
      simpa only [Record.node.injEq, Step.compare.injEq, true_and] using hw
    rw [Expr.comparisons, List.forall_mem_append, List.forall_mem_append,
      List.forall_mem_singleton] at hm
    obtain ⟨⟨hmirl, hmirr⟩, hmirror⟩ := hm
    obtain ⟨hml, hdl, hrl, hresl⟩ := Expr.matches_of_gen l hρ hl hgl hmirl
    obtain ⟨hmr, hdr, hrr, hresr⟩ := Expr.matches_of_gen r hρ hr hgr hmirr
    rw [hresl, hresr] at hx hy ht ha hb hmirror
    obtain ⟨x', y', hx', hy', hagree⟩ := hrl.operands hrr
    obtain rfl : x' = x := Option.some.inj (hx'.symm.trans hx)
    obtain rfl : y' = y := Option.some.inj (hy'.symm.trans hy)
    obtain ⟨hbal, hcl, hcr⟩ := hagree.mp ⟨ht, ha, hb⟩
    refine ⟨⟨hml, hmr, hbal, hcl, hcr, mirrors_iff.mp hmirror⟩, ⟨trivial, hdl, hdr⟩, ?_, rfl⟩
    rw [hresl, hresr, ha, hb]
    exact .reg rfl (wrap_truth _)
  | cast t e =>
    simp only [Expr.eval, Expr.gen, Option.bind_eq_bind, Option.bind_eq_some_iff, Prod.exists,
      Option.some.injEq, Prod.mk.injEq] at heval hgen
    obtain ⟨w', a, heval, rfl, rfl⟩ := heval
    obtain ⟨w'', o', hgen, o'', hconv, x, hx, hw, rfl⟩ := hgen
    obtain ⟨⟨-, ha⟩, rfl, -⟩ := by simpa only [Record.node.injEq, Step.cast.injEq] using hw
    obtain ⟨hmatch, hdef, hreads, hres⟩ := Expr.matches_of_gen e hρ heval hgen hm
    rw [hres] at hconv
    obtain ⟨o₁, x₁, hconv₁, hx₁, hcarries, hkind⟩ := hreads.convert t.width
    obtain rfl : o₁ = o'' := Option.some.inj (hconv₁.symm.trans hconv)
    obtain rfl : x₁ = x := Option.some.inj (hx₁.symm.trans hx)
    refine ⟨⟨hmatch, (hcarries _ rfl).mp ha⟩, ⟨trivial, hdef, trivial⟩, ?_, rfl⟩
    exact Reads.cast hkind ha
  | call ret f args =>
    simp only [Expr.eval, Expr.gen, Option.bind_eq_bind, Option.bind_eq_some_iff, Prod.exists,
      Option.some.injEq, Prod.mk.injEq] at heval hgen
    obtain ⟨w', vs, heval, rfl, rfl⟩ := heval
    obtain ⟨w'', us, hgen, rfl, rfl⟩ := hgen
    obtain ⟨hmatch, hdef, rfl⟩ := Args.matches_of_gen args hρ heval hgen hm
    exact ⟨hmatch, hdef, .reg rfl rfl, rfl⟩

theorem Args.matches_of_gen (as : Args) {ρ : Env} {σ : Slots} (hρ : Fits ρ σ) {w : Record}
    {vs us : List Int} (heval : as.eval ρ = some (w, vs)) (hgen : as.gen σ = some (w, us))
    (hm : ∀ c ∈ as.comparisons, Mirrors c.1 c.2.1 c.2.2) :
    as.Matches ∧ w.Defined ∧ us = vs := by
  cases as with
  | nil =>
    simp only [Args.eval, Args.gen, Option.some.injEq, Prod.mk.injEq] at heval hgen
    obtain ⟨rfl, rfl⟩ := heval
    obtain ⟨-, rfl⟩ := hgen
    exact ⟨trivial, trivial, rfl⟩
  | cons p e rest =>
    simp only [Args.eval, Args.gen, Option.bind_eq_bind, Option.bind_eq_some_iff, Prod.exists,
      Option.some.injEq, Prod.mk.injEq] at heval hgen
    obtain ⟨w', a, heval, ws, vs', hevals, rfl, rfl⟩ := heval
    obtain ⟨w'', o, hgen, x, hx, ws', us', hgens, hw, rfl⟩ := hgen
    obtain ⟨⟨-, ha⟩, rfl, rfl⟩ := by simpa only [Record.node.injEq, Step.arg.injEq] using hw
    rw [Args.comparisons, List.forall_mem_append] at hm
    obtain ⟨hmatch, hdef, hreads, hres⟩ := Expr.matches_of_gen e hρ heval hgen hm.1
    obtain ⟨hmatchs, hdefs, rfl⟩ := Args.matches_of_gen rest hρ hevals hgens hm.2
    rw [hres] at hx
    obtain ⟨x', hx', hcarries⟩ := hreads.operand p.width
    obtain rfl : x' = x := Option.some.inj (hx'.symm.trans hx)
    exact ⟨⟨hmatch, (hcarries _ rfl).mp ha, hmatchs⟩, ⟨trivial, hdef, hdefs⟩, by rw [ha]⟩

end

mutual

theorem Expr.gen_of_matches (e : Expr) {ρ : Env} {σ : Slots} (hρ : Fits ρ σ) {w : Record} {v : Int}
    (heval : e.eval ρ = some (w, v)) (hmatch : e.Matches) (hdef : w.Defined) :
    ∃ o, e.gen σ = some (w, o) ∧ Reads e v o ∧ e.resolved = e.typeId ∧
      ∀ c ∈ e.comparisons, Mirrors c.1 c.2.1 c.2.2 := by
  cases e with
  | lit n =>
    simp only [Expr.eval, Option.some.injEq, Prod.mk.injEq] at heval
    obtain ⟨rfl, rfl⟩ := heval
    exact ⟨.text n, rfl, .text rfl rfl, rfl, nofun⟩
  | name x t =>
    simp only [Expr.eval] at heval
    split at heval
    · next t' v' hlook =>
      split at heval
      · next ht =>
        subst ht
        obtain ⟨c, hslot, hc⟩ := hρ x t' v' hlook
        simp only [Option.some.injEq, Prod.mk.injEq] at heval
        obtain ⟨rfl, rfl⟩ := heval
        refine ⟨.reg t'.width c, ?_, .reg rfl hc, rfl, nofun⟩
        rw [Expr.gen, hslot]
      · cases heval
    · cases heval
  | neg e =>
    simp only [Expr.eval, Option.bind_eq_bind, Option.bind_eq_some_iff, Prod.exists,
      Option.some.injEq, Prod.mk.injEq] at heval
    obtain ⟨w', a, heval, rfl, rfl⟩ := heval
    obtain ⟨o, hgen, hreads, -, hmirror⟩ := Expr.gen_of_matches e hρ heval hmatch.1 hdef.2.1
    obtain ⟨x, hx, ha⟩ := hreads.at
    have hword : e.typeId.toWord = ⟨32, e.typeId.signed⟩ := by rw [← hmatch.2]
    rw [hmatch.2] at hx
    refine ⟨.reg 32 (-e.typeId.wrap a), ?_, ?_, rfl, hmirror⟩
    · simp only [Expr.gen, hgen, Option.bind_eq_bind, Option.bind_some, hx, ← hword, ha]
    · rw [← hmatch.2]
      exact .reg rfl rfl
  | arith op l r =>
    simp only [Expr.eval, Option.bind_eq_bind, Option.bind_eq_some_iff, Prod.exists,
      Option.some.injEq, Prod.mk.injEq] at heval
    obtain ⟨wl, a, hl, wr, b, hr, c, hrun, rfl, rfl⟩ := heval
    obtain ⟨hml, hmr, hmatch⟩ := hmatch
    obtain ⟨ol, hgl, hrl, hresl, hmirl⟩ := Expr.gen_of_matches l hρ hl hml hdef.2.1
    obtain ⟨or, hgr, hrr, hresr, hmirr⟩ := Expr.gen_of_matches r hρ hr hmr hdef.2.2
    obtain ⟨x, y, hx, hy, hagree⟩ := hrl.operands hrr
    obtain ⟨ht, ha, hb⟩ := hagree.mpr hmatch
    have hpick := IntTy.eq_of_toWord ht
    have hemit : op.emit (pick l.typeId r.typeId).toWord ((pick l.typeId r.typeId).wrap x)
        ((pick l.typeId r.typeId).wrap y) = some c := by
      rw [ha, hb, ht]
      exact ArithOp.emit_eq_some.mpr ⟨hdef.1, hrun⟩
    refine ⟨.reg (binaryTypeId l.typeId r.typeId).width c, ?_, .reg rfl rfl, ?_,
      List.forall_mem_append.mpr ⟨hmirl, hmirr⟩⟩
    · simp only [Expr.gen, hgl, hgr, hresl, hresr, Option.bind_eq_bind, Option.bind_some, hx, hy,
        hemit]
      rw [ha, hb, hpick]
    · rw [Expr.resolved, Expr.typeId, hresl, hresr, hpick]
  | compare op l r =>
    simp only [Expr.eval, Option.bind_eq_bind, Option.bind_eq_some_iff, Prod.exists,
      Option.some.injEq, Prod.mk.injEq] at heval
    obtain ⟨wl, a, hl, wr, b, hr, rfl, rfl⟩ := heval
    obtain ⟨hml, hmr, hbal, hcl, hcr, hsign⟩ := hmatch
    obtain ⟨ol, hgl, hrl, hresl, hmirl⟩ := Expr.gen_of_matches l hρ hl hml hdef.2.1
    obtain ⟨or, hgr, hrr, hresr, hmirr⟩ := Expr.gen_of_matches r hρ hr hmr hdef.2.2
    obtain ⟨x, y, hx, hy, hagree⟩ := hrl.operands hrr
    obtain ⟨ht, ha, hb⟩ := hagree.mpr ⟨hbal, hcl, hcr⟩
    refine ⟨.reg 32 _, ?_, .reg rfl (wrap_truth _), rfl, ?_⟩
    · simp only [Expr.gen, hgl, hgr, hresl, hresr, Option.bind_eq_bind, Option.bind_some, hx, hy]
      rw [ha, hb, ht]
    · rw [Expr.comparisons, List.forall_mem_append, List.forall_mem_append,
        List.forall_mem_singleton, hresl, hresr]
      exact ⟨⟨hmirl, hmirr⟩, mirrors_iff.mpr hsign⟩
  | cast t e =>
    simp only [Expr.eval, Option.bind_eq_bind, Option.bind_eq_some_iff, Prod.exists,
      Option.some.injEq, Prod.mk.injEq] at heval
    obtain ⟨w', a, heval, rfl, rfl⟩ := heval
    obtain ⟨o, hgen, hreads, hres, hmirror⟩ := Expr.gen_of_matches e hρ heval hmatch.1 hdef.2.1
    obtain ⟨o', x, hconv, hx, hcarries, hkind⟩ := hreads.convert t.width
    have ha := (hcarries _ rfl).mpr hmatch.2
    refine ⟨o', ?_, Reads.cast hkind ha, rfl, hmirror⟩
    simp only [Expr.gen, hgen, hres, Option.bind_eq_bind, Option.bind_some, hconv, hx, ha]
  | call ret f args =>
    simp only [Expr.eval, Option.bind_eq_bind, Option.bind_eq_some_iff, Prod.exists,
      Option.some.injEq, Prod.mk.injEq] at heval
    obtain ⟨w', vs, heval, rfl, rfl⟩ := heval
    obtain ⟨hgen, hmirror⟩ := Args.gen_of_matches args hρ heval hmatch hdef
    refine ⟨.reg ret.width (f vs), ?_, .reg rfl rfl, rfl, hmirror⟩
    simp only [Expr.gen, hgen, Option.bind_eq_bind, Option.bind_some]

theorem Args.gen_of_matches (as : Args) {ρ : Env} {σ : Slots} (hρ : Fits ρ σ) {w : Record}
    {vs : List Int} (heval : as.eval ρ = some (w, vs)) (hmatch : as.Matches) (hdef : w.Defined) :
    as.gen σ = some (w, vs) ∧ ∀ c ∈ as.comparisons, Mirrors c.1 c.2.1 c.2.2 := by
  cases as with
  | nil => exact ⟨heval, nofun⟩
  | cons p e rest =>
    simp only [Args.eval, Option.bind_eq_bind, Option.bind_eq_some_iff, Prod.exists,
      Option.some.injEq, Prod.mk.injEq] at heval
    obtain ⟨w', a, heval, ws, vs', hevals, rfl, rfl⟩ := heval
    obtain ⟨hmatch, hcarry, hmatchs⟩ := hmatch
    obtain ⟨o, hgen, hreads, hres, hmirror⟩ := Expr.gen_of_matches e hρ heval hmatch hdef.2.1
    obtain ⟨hgens, hmirrors⟩ := Args.gen_of_matches rest hρ hevals hmatchs hdef.2.2
    obtain ⟨x, hx, hcarries⟩ := hreads.operand p.width
    have ha := (hcarries _ rfl).mpr hcarry
    refine ⟨?_, List.forall_mem_append.mpr ⟨hmirror, hmirrors⟩⟩
    simp only [Args.gen, hgen, hgens, hres, Option.bind_eq_bind, Option.bind_some, hx, ha]

end

/-! ## Bodies -/

theorem Fits.cons {ρ : Env} {σ : Slots} (h : Fits ρ σ) {x : String} {t : IntTy} {v c : Int}
    (hc : t.wrap c = v) : Fits ((x, t, v) :: ρ) ((x, t.width, c) :: σ) := by
  intro y t' v' hlook
  rw [List.lookup_cons] at hlook ⊢
  split at hlook
  · obtain ⟨rfl, rfl⟩ := by simpa only [Option.some.injEq, Prod.mk.injEq] using hlook
    exact ⟨c, rfl, hc⟩
  · exact h y t' v' hlook

/-- The slot of a binding is the variable it is for. -/
theorem Reads.slot {e : Expr} {a : Int} {o : Operand} (h : Reads e a o) (ann : Option IntTy) :
    ∃ width c, IntExpr.slot ann e.typeId.toWord o = some (width, c) ∧
      ((⟨width, (ann.getD e.typeId).signed⟩ : Word) = (ann.getD e.typeId).toWord ∧
        (⟨width, (ann.getD e.typeId).signed⟩ : Word).wrap c = (ann.getD e.typeId).wrap a ↔
      ∀ t ∈ ann, if t.width = 32 then e.typeId.width = 32 else e.Carries t.width) := by
  obtain ⟨c, hc, ha⟩ := h.at
  cases ann with
  | none =>
    refine ⟨e.typeId.width, c, ?_, iff_of_true ⟨rfl, ha⟩ nofun⟩
    rw [IntExpr.slot, hc]
    rfl
  | some t =>
    simp only [Option.getD_some, Option.mem_def, Option.some.injEq, forall_eq']
    by_cases hwidth : t.width = 32
    · refine ⟨e.typeId.width, c, ?_, ?_⟩
      · rw [IntExpr.slot, if_neg (not_not.mpr hwidth), hc]
        rfl
      · rw [if_pos hwidth]
        constructor
        · rintro ⟨hword, -⟩
          exact (congrArg Word.width hword).trans hwidth
        · intro hsame
          have hword : (⟨e.typeId.width, t.signed⟩ : Word) = t.toWord := by rw [hsame, ← hwidth]
          refine ⟨hword, ?_⟩
          rw [hword, Word.wrap_eq_iff, hwidth, ← hsame]
          exact Word.wrap_eq_iff.mp ha
    · obtain ⟨x, hx, hcarries⟩ := h.operand t.width
      refine ⟨t.width, x, ?_, ?_⟩
      · rw [IntExpr.slot, if_pos hwidth, hx]
        rfl
      · rw [if_neg hwidth, ← hcarries _ rfl]
        exact and_iff_right rfl

theorem Body.gen_iff (b : Body) {ρ : Env} {σ : Slots} (hρ : Fits ρ σ) {w : Record}
    (heval : b.eval ρ = some w) :
    (b.gen σ = some w ∧ ∀ c ∈ b.comparisons, Mirrors c.1 c.2.1 c.2.2) ↔
      b.Matches ∧ w.Defined := by
  induction b generalizing ρ σ w with
  | value e =>
    simp only [Body.eval, Option.bind_eq_bind, Option.bind_eq_some_iff, Prod.exists,
      Option.some.injEq] at heval
    obtain ⟨w', a, heval, rfl⟩ := heval
    constructor
    · rintro ⟨hgen, hmirror⟩
      simp only [Body.gen, Option.bind_eq_bind, Option.bind_eq_some_iff, Prod.exists,
        Option.some.injEq] at hgen
      obtain ⟨w'', o, hgen, x, hx, hw⟩ := hgen
      obtain ⟨-, rfl, -⟩ := by simpa only [Record.node.injEq] using hw
      obtain ⟨hmatch, hdef, -, -⟩ := e.matches_of_gen hρ heval hgen hmirror
      exact ⟨hmatch, trivial, hdef, trivial⟩
    · rintro ⟨hmatch, -, hdef, -⟩
      obtain ⟨o, hgen, hreads, hres, hmirror⟩ := e.gen_of_matches hρ heval hmatch hdef
      obtain ⟨x, hx, ha⟩ := hreads.at
      refine ⟨?_, hmirror⟩
      simp only [Body.gen, hgen, hres, Option.bind_eq_bind, Option.bind_some, hx, ha]
  | bind x ann e rest ih =>
    simp only [Body.eval, Option.bind_eq_bind, Option.bind_eq_some_iff, Prod.exists,
      Option.some.injEq] at heval
    obtain ⟨w', a, heval, ws, hrest, rfl⟩ := heval
    rw [Body.comparisons, List.forall_mem_append]
    constructor
    · rintro ⟨hgen, hmirror, hmirrors⟩
      simp only [Body.gen, Option.bind_eq_bind, Option.bind_eq_some_iff, Prod.exists,
        Option.some.injEq] at hgen
      obtain ⟨w'', o, hgen, width, c, hslot, ws', hgens, hw⟩ := hgen
      obtain ⟨⟨-, hword, hc⟩, rfl, rfl⟩ := by
        simpa only [Record.node.injEq, Step.bind.injEq] using hw
      obtain ⟨hmatch, hdef, hreads, hres⟩ := e.matches_of_gen hρ heval hgen hmirror
      rw [hres] at hslot
      obtain ⟨width', c', hslot', hann⟩ := hreads.slot ann
      obtain ⟨rfl, rfl⟩ : width' = width ∧ c' = c := by
        simpa only [Option.some.injEq, Prod.mk.injEq] using hslot'.symm.trans hslot
      have hwidth : width' = (ann.getD e.typeId).width := congrArg Word.width hword
      rw [hword] at hc
      rw [hwidth] at hgens
      obtain ⟨hmatchs, hdefs⟩ := (ih (hρ.cons hc) hrest).mp ⟨hgens, hmirrors⟩
      exact ⟨⟨hmatch, hann.mp ⟨hword, by rw [hword, hc]⟩, hmatchs⟩, trivial, hdef, hdefs⟩
    · rintro ⟨⟨hmatch, hbind, hmatchs⟩, -, hdef, hdefs⟩
      obtain ⟨o, hgen, hreads, hres, hmirror⟩ := e.gen_of_matches hρ heval hmatch hdef
      obtain ⟨width, c, hslot, hann⟩ := hreads.slot ann
      obtain ⟨hword, hc⟩ := hann.mpr hbind
      have hwidth : width = (ann.getD e.typeId).width := congrArg Word.width hword
      rw [hword] at hc
      obtain ⟨hgens, hmirrors⟩ := (ih (hρ.cons hc) hrest).mpr ⟨hmatchs, hdefs⟩
      rw [← hwidth] at hgens
      refine ⟨?_, hmirror, hmirrors⟩
      simp only [Body.gen, hgen, hres, Option.bind_eq_bind, Option.bind_some, hslot, hgens, hword,
        hc]

/-! ## Integer expressions are computed in their static type -/

/-- A parameter: its name, its type and the bits it is called with. -/
abbrev Param := String × IntTy × Int

def env (ps : List Param) : Env := ps.map fun (x, t, c) => (x, t, t.wrap c)

def slots (ps : List Param) : Slots := ps.map fun (x, t, c) => (x, t.width, c)

theorem fits_params (ps : List Param) : Fits (env ps) (slots ps) := by
  induction ps with
  | nil => nofun
  | cons p ps ih => exact ih.cons rfl

/-- The emitted code does the work `w`, and none of its comparisons depends on which side is
written first. -/
structure Computed (ps : List Param) (b : Body) (w : Record) : Prop where
  gen_eq : b.gen (slots ps) = some w
  mirrors : ∀ c ∈ b.comparisons, Mirrors c.1 c.2.1 c.2.2

/-- A body whose work is `w` by its static types is compiled to code that does this work, exactly
if the types of the operands match and no signed quotient leaves its type. -/
theorem computed_iff (ps : List Param) (b : Body) {w : Record} (h : b.eval (env ps) = some w) :
    Computed ps b w ↔ b.Matches ∧ w.Defined := by
  rw [← b.gen_iff (fits_params ps) h]
  exact ⟨fun h => ⟨h.gen_eq, h.mirrors⟩, fun h => ⟨h.1, h.2⟩⟩

def u8 : IntTy := ⟨⟨8, false⟩, by decide⟩

def i64 : IntTy := ⟨⟨64, true⟩, by decide⟩

def u64 : IntTy := ⟨⟨64, false⟩, by decide⟩

/-- `s := total + b`, then `s < 500`. -/
def exTotal : Body :=
  .bind "s" none (.arith .add (.name "total" i64) (.name "b" u8))
    (.value (.compare .lt (.name "s" i64) (.lit 500)))

/-- A byte added to a total of 64 bits, compared with a literal. -/
theorem computed_exTotal :
    ∃ w, exTotal.eval (env [("total", i64, 100), ("b", u8, 200)]) = some w ∧
      Computed [("total", i64, 100), ("b", u8, 200)] exTotal w := by
  refine ⟨_, rfl, (computed_iff _ exTotal rfl).mpr ⟨?_, ?_⟩⟩
  · refine ⟨⟨trivial, trivial, ?_, ?_, ?_⟩, nofun, trivial, trivial, ?_, ?_, ?_, .inr (.inr rfl)⟩
    all_goals decide
  · refine ⟨trivial, ⟨?_, trivial, trivial⟩, trivial, ⟨trivial, trivial, trivial⟩, trivial⟩
    show ¬ ArithOp.Undefined _ _ _ _
    decide

/-- The sum of two bytes is an `int` by its static type and a byte in the code, and `a < b` is not
`b > a` for an `i64` and a `u64`. -/
theorem not_computed_bytes :
    (Body.value (.arith .add (.name "a" u8) (.name "b" u8))).eval
        (env [("a", u8, 200), ("b", u8, 100)]) =
      some (.node (.value ⟨32, true⟩ 300)
        (.node (.arith .add ⟨32, true⟩ 200 100 300) .leaf .leaf) .leaf) ∧
    (Body.value (.arith .add (.name "a" u8) (.name "b" u8))).gen
        (slots [("a", u8, 200), ("b", u8, 100)]) =
      some (.node (.value ⟨8, false⟩ 44)
        (.node (.arith .add ⟨8, false⟩ 200 100 44) .leaf .leaf) .leaf) ∧
    icmp .lt i64 u64 (-1) 1 = true ∧ icmp .gt u64 i64 1 (-1) = false := by
  refine ⟨?_, ?_, ?_, ?_⟩ <;> decide +kernel

end Arche.Codegen.IntExpr
