import Arche.Lib.Run
import Mathlib.Algebra.Order.Ring.Int
import Mathlib.Data.List.Basic
import Mathlib.Tactic.Common

/-!
# Slice arguments

A `[]T` parameter is a pointer and a length. `codegen_expression` finds the length of an
argument in what was recorded for it at compile time: the declared size, the width of a
column, the length of a literal, the register that holds the length of a slice. Each form of
argument has a branch of its own, and the chain ends in branches that pass no length.

`Arg.denote` is the array an argument stands for, `Arg.passed` what the call gets.

1. `run_sized`, `run_kept`: what holds of the records after every run of bindings.
2. `passed_exact_iff`: in every state reached, which arguments arrive with their first element and
   their length.
3. `not_passed_exact`: a row of a pool bound to a variable arrives with length -1.
-/

namespace Arche.Codegen.SliceArgs

open Arche.Lib

/-! ## Arrays -/

/-- The address of an element: an object and a position in it. -/
inductive Ptr
  | null
  | elem (object : Nat) (index : Int)
deriving DecidableEq, Repr

/-- `getelementptr`. -/
def Ptr.add : Ptr → Int → Ptr
  | .null, _ => .null
  | .elem o i, k => .elem o (i + k)

/-- An array: its first element and the number of its elements. -/
@[ext]
structure View where
  ptr : Ptr
  len : Int
deriving DecidableEq, Repr

/-- A bounds policy on a length and a bound. It may stop the program. -/
abbrev Policy := Int → Int → Option Int

/-- A policy works on `int`. -/
def i32 (x : Int) : Int := x.bmod (2 ^ 32)

/-- Both bounds go through the policy with one position more than there are elements, and so
does their distance. Start and length of the view. -/
def bounded (pol : Policy) (len lo hi : Int) : Option (Int × Int) := do
  let np1 := i32 (len + 1)
  let lo' ← pol np1 (i32 lo)
  let hi' ← pol np1 (i32 hi)
  let len' ← pol np1 (i32 (hi' - lo'))
  some (lo', len')

/-- `buf[lo:hi]`. Bounds that were proved in range need no policy. -/
def View.sub (v : View) (pol : Policy) (lo hi : Option Int) (elided : Bool) : Option View :=
  let l := lo.getD 0
  let h := hi.getD v.len
  if elided then some ⟨v.ptr.add l, h - l⟩
  else (bounded pol v.len l h).map fun b => ⟨v.ptr.add b.1, b.2⟩

/-! ## What is recorded -/

/-- The record of a type-6 value. `lenSsa` is the register of a slice; -1 is no count. -/
structure ValueInfo where
  llvmName : Ptr
  stringLen : Int := -1
  lenSsa : Option Int := none
deriving DecidableEq, Repr

def ValueInfo.len (vi : ValueInfo) : Int := vi.lenSsa.getD vi.stringLen

/-- What `codegen_slice` takes a view of: the text of the length may be `-1`. -/
structure SliceBase where
  ptr : Ptr
  len : Int
  unknown : Bool := false
deriving DecidableEq, Repr

def ValueInfo.sliceBase (vi : ValueInfo) : SliceBase :=
  ⟨vi.llvmName, vi.len, vi.lenSsa.isNone && vi.stringLen == -1⟩

/-- `codegen_slice` from `have_base` on. Nothing is checked against an unknown length. -/
def emitSlice (b : SliceBase) (pol : Policy) (lo hi : Option Int) (elided : Bool) : Option View :=
  let lo64 := lo.getD 0
  let hi64 := hi.getD b.len
  if !b.unknown && !elided then do
    let (lo', len) ← bounded pol b.len lo64 hi64
    let newhi := lo' + len
    some ⟨b.ptr.add lo', newhi - lo'⟩
  else some ⟨b.ptr.add lo64, hi64 - lo64⟩

/-- An array column in a row loop: the current row is its elements `row * width` on. -/
structure Column where
  object : Nat
  width : Nat
  row : Nat
deriving DecidableEq, Repr

def Column.view (c : Column) : View := ⟨.elem c.object (c.row * c.width), c.width⟩

/-- A variable with the array it stands for. -/
inductive Local
  | array (view : View) (info : ValueInfo)
  | column (c : Column)
  /-- Registered as a scalar, or not at all. -/
  | lost (view : View)

def Local.view : Local → View
  | .array v _ => v
  | .column c => c.view
  | .lost v => v

/-- The record is the array. -/
def Local.Kept : Local → Prop
  | .array v vi => vi.sliceBase = ⟨v.ptr, v.len, false⟩
  | .column c => 1 < c.width
  | .lost _ => False

abbrev Locals := List (String × Local)

/-! ## Arguments -/

/-- A 1-D static array. Those of chars are registered as values at the start of a function. -/
structure StaticArray where
  object : Nat
  size : Nat
  isChar : Bool
deriving DecidableEq, Repr

def StaticArray.view (a : StaticArray) : View := ⟨.elem a.object 0, a.size⟩

def StaticArray.info (a : StaticArray) : ValueInfo :=
  { llvmName := .elem a.object 0, stringLen := a.size }

inductive Base
  | name (x : String)
  | staticArray (a : StaticArray)
  /-- `Pool.col`, up to the capacity of the pool. -/
  | pool (object capacity : Nat) (isStatic : Bool)
  /-- A literal, a call, a row, a slice. -/
  | other (v : View)

/-- `group` is a function group: the callee is one of its members. -/
inductive Callee
  | func
  | group
deriving DecidableEq, Repr

inductive Form
  | name (x : String)
  | staticArray (a : StaticArray)
  /-- A literal, or a string constant: lowering puts its literal in its place. -/
  | string (object length : Nat)
  /-- `M[i]` for a matrix constant. -/
  | row (object stride : Nat) (i : Int)
  /-- `Pool.col[i]` where each row is `[width]T`. -/
  | poolRow (object width : Nat) (i : Int)
  | slice (base : Base) (lo hi : Option Int) (elided : Bool)
  /-- A call that returns a `[]T`. -/
  | call (callee : Callee) (result : View)
  /-- A call that returns a `[n]T`. -/
  | sizedCall (result : Ptr) (n : Nat)

/-- A copy goes to an object of its own. -/
inductive Mark
  | move
  | copy (object : Nat)
deriving DecidableEq, Repr

structure Arg where
  mark : Option Mark := none
  form : Form

/-- `copy x` duplicates an array of known size and passes everything else on. -/
def copied (vi : ValueInfo) (v : View) : Option Mark → View
  | some (.copy o) => if 0 < vi.stringLen ∧ vi.lenSsa = none then { v with ptr := .elem o 0 } else v
  | _ => v

/-! ## What an argument stands for -/

def Base.view (s : Locals) : Base → Option View
  | .name x => (s.lookup x).map Local.view
  | .staticArray a => some a.view
  | .pool o n _ => some ⟨.elem o 0, n⟩
  | .other v => some v

def rowView (object width : Nat) (i : Int) : View := ⟨.elem object (i * width), width⟩

/-- The array an argument stands for, unless a bound stops the program. -/
def Arg.denote (s : Locals) (pol : Policy) (a : Arg) : Option View :=
  match a.form with
  | .name x =>
    (s.lookup x).map fun
      | .array v vi => copied vi v a.mark
      | l => l.view
  | .staticArray st => some (if st.isChar then copied st.info st.view a.mark else st.view)
  | .string o n => some ⟨.elem o 0, n⟩
  | .row o stride i => some (rowView o stride i)
  | .poolRow o width i => some (rowView o width i)
  | .slice b lo hi elided => (b.view s).bind fun v => v.sub pol lo hi elided
  | .call _ v => some v
  | .sizedCall p n => some ⟨p, n⟩

/-! ## What is passed -/

/-- The base of `codegen_slice`, for the forms it knows. -/
def Base.sliceBase (s : Locals) : Base → Option SliceBase
  | .name x =>
    match s.lookup x with
    | some (.array _ vi) => some vi.sliceBase
    | some (.column c) => if c.width ≤ 1 then none else some ⟨c.view.ptr, c.width, false⟩
    | some (.lost _) | none => none
  -- found as a value
  | .staticArray a => if a.isChar then some a.info.sliceBase else none
  | .pool o n isStatic => if isStatic then some ⟨.elem o 0, n, false⟩ else none
  | .other _ => none

/-- What evaluates to a pointer, evaluates to this one. A copy of what has a count is cloned. -/
def Arg.buf (s : Locals) (a : Arg) : Option Ptr :=
  match a.form with
  | .name x =>
    match s.lookup x with
    | some (.array v vi) => some (copied vi ⟨vi.llvmName, v.len⟩ a.mark).ptr
    | some (.column c) => if 1 < c.width then some c.view.ptr else none
    | some (.lost _) | none => none
  | .staticArray st => some (if st.isChar then copied st.info st.view a.mark else st.view).ptr
  | .string o _ => some (.elem o 0)
  | .row o stride i => if 1 < stride then some (rowView o stride i).ptr else none
  | .poolRow o width i => some (rowView o width i).ptr
  | .slice _ _ _ _ => some .null
  | .call _ _ => none
  | .sizedCall p _ => some p

/-- The two positional arguments, each if there is one. -/
structure Passed where
  ptr : Option Ptr
  len : Option Int
deriving DecidableEq, Repr

def View.passed (v : View) : Passed := ⟨some v.ptr, some v.len⟩

/-- The branches of the argument preparation, for a callee that wants a slice. Nothing is passed
if the program stops at a bound, or the compiler at a name it does not find. -/
def Arg.passed (s : Locals) (pol : Policy) (a : Arg) : Option Passed :=
  match a.form with
  | .slice b lo hi elided =>
    match b.sliceBase s with
    -- a temporary record of the view
    | some base => (emitSlice base pol lo hi elided).map View.passed
    | none => some ⟨a.buf s, none⟩
  | .call .func v => some v.passed
  | .call .group _ => some ⟨a.buf s, none⟩
  | .sizedCall _ _ => some ⟨a.buf s, none⟩
  | .name x =>
    match s.lookup x with
    | some (.array _ vi) => some ⟨a.buf s, some vi.len⟩
    | some (.column c) =>
      -- the name itself, not under a `move`
      if a.mark = none ∧ 1 < c.width then some ⟨a.buf s, some c.width⟩ else some ⟨a.buf s, none⟩
    | some (.lost _) => some ⟨a.buf s, none⟩
    | none => none
  | .row _ stride _ =>
    if 1 < stride then some ⟨a.buf s, some stride⟩ else some ⟨a.buf s, none⟩
  | .staticArray st =>
    if st.isChar then some ⟨a.buf s, some st.info.len⟩
    -- the name is read from the argument as it stands: a `move` or `copy` has none
    else if a.mark = none then some ⟨some st.view.ptr, some st.size⟩
    else none
  -- under a `move` or `copy` the literal is not found again, and its length stays 0
  | .string _ n => some ⟨a.buf s, some (if a.mark = none then n else 0)⟩
  | .poolRow _ _ _ => some ⟨a.buf s, none⟩

/-! ## Bindings -/

inductive Bind
  /-- `x : [n]T`, with or without a value. -/
  | decl (x : String) (object n : Nat)
  /-- `x : []T` without a value. -/
  | declSlice (x : String)
  /-- `x := {e, ...}`. -/
  | arrayLit (x : String) (object count : Nat)
  /-- `x := e`. -/
  | bind (x : String) (a : Arg)

/-- The record of `x := a` if one is made. -/
def Arg.record (s : Locals) (pol : Policy) (a : Arg) : Option ValueInfo :=
  match a.form with
  | .slice b lo hi elided =>
    match a.mark with
    | some (.copy _) => none
    | _ => do
      let base ← b.sliceBase s
      let v ← emitSlice base pol lo hi elided
      some { llvmName := v.ptr, lenSsa := some v.len }
  | .row o stride i =>
    if 1 < stride then some { llvmName := (rowView o stride i).ptr, lenSsa := some stride }
    else none
  | .staticArray st =>
    if st.isChar ∨ a.mark = none then (a.buf s).map fun p => { st.info with llvmName := p }
    else none
  | .call .func v =>
    if a.mark = none then some { llvmName := v.ptr, lenSsa := some v.len } else none
  | .call .group _ => none
  | .sizedCall p n => if a.mark = none then some { llvmName := p, stringLen := n } else none
  | .name x =>
    match s.lookup x with
    | some (.array _ vi) => (a.buf s).map fun p => { vi with llvmName := p }
    | some (.column _) | some (.lost _) | none => none
  | .poolRow o width i =>
    if a.mark = none then some { llvmName := (rowView o width i).ptr } else none
  | .string o n => if a.mark = none then some { llvmName := .elem o 0, stringLen := n } else none

/-- `x := a`, for the array `v` that `a` stands for. -/
def Arg.bound (s : Locals) (pol : Policy) (a : Arg) (v : View) : Local :=
  match a.record s pol with
  | some vi => .array v vi
  | none => .lost v

def counted (object n : Nat) : Local :=
  .array ⟨.elem object 0, n⟩ { llvmName := .elem object 0, stringLen := n }

def Bind.run (pol : Policy) (s : Locals) : Bind → Option Locals
  | .decl x o n => some ((x, counted o n) :: s)
  | .declSlice x => some ((x, .array ⟨.null, 0⟩ { llvmName := .null, lenSsa := some 0 }) :: s)
  | .arrayLit x o n => some ((x, counted o n) :: s)
  | .bind x a => (a.denote s pol).map fun v => (x, a.bound s pol v) :: s

/-- The kinds of `[n]T` parameters. -/
inductive Param
  | func
  | proc
  | out
deriving DecidableEq, Repr

/-- The count a `[n]T` parameter is recorded with. -/
def Param.stringLen : Param → Nat → Int
  | .func, n => if 0 < n then n else -1
  | .proc, _ => -1
  | .out, n => n

/-- What a body starts with. -/
inductive Entry
  /-- A `[]T` parameter: `%argN.ptr` and `%argN.len`, or what the caller left in `%outN`. -/
  | sliceParam (v : View)
  | sizedParam (kind : Param) (p : Ptr) (n : Nat)
  | column (c : Column)

def Entry.toLocal : Entry → Local
  | .sliceParam v => .array v { llvmName := v.ptr, lenSsa := some v.len }
  | .sizedParam kind p n => .array ⟨p, n⟩ { llvmName := p, stringLen := kind.stringLen n }
  | .column c => .column c

def outset (es : List (String × Entry)) : Locals := es.map fun e => (e.1, e.2.toLocal)

/-- The body goes through a binding. -/
def Step (pol : Policy) (s : Locals) (b : Bind) (t : Locals) : Prop := b.run pol s = some t

/-! ## The condition -/

/-- The argument arrives as the array it stands for. -/
def Exact (s : Locals) (pol : Policy) (a : Arg) : Prop :=
  a.passed s pol = (a.denote s pol).map View.passed

/-- A view of the variable is made with the right pointer and the right length. -/
def Local.Views (pol : Policy) (lo hi : Option Int) (elided : Bool) : Local → Prop
  | .array v vi => emitSlice vi.sliceBase pol lo hi elided = v.sub pol lo hi elided
  | .column c => 1 < c.width
  | .lost _ => False

def Base.Views (s : Locals) (pol : Policy) (lo hi : Option Int) (elided : Bool) : Base → Prop
  | .name x => ∃ l, s.lookup x = some l ∧ l.Views pol lo hi elided
  | .staticArray a => a.isChar
  | .pool _ _ isStatic => isStatic
  | .other _ => False

def Arg.Carried (s : Locals) (pol : Policy) (a : Arg) : Prop :=
  match a.form with
  | .name x => ∀ l, s.lookup x = some l → l.Kept ∧ (a.mark ≠ none → ∀ c, l ≠ .column c)
  | .staticArray st => st.isChar ∨ a.mark = none
  | .string _ n => a.mark = none ∨ n = 0
  | .row _ stride _ => 1 < stride
  | .poolRow _ _ _ => False
  | .slice b lo hi elided => b.Views s pol lo hi elided
  | .call callee _ => callee = .func
  | .sizedCall _ _ => False

/-- `x := a` records `x` as the array `a` stands for. -/
def Arg.Plain (s : Locals) (pol : Policy) (a : Arg) : Prop :=
  match a.form with
  | .name x => ∃ v vi, s.lookup x = some (.array v vi)
  | .staticArray st => st.isChar ∨ a.mark = none
  | .string _ _ => a.mark = none
  | .row _ stride _ => 1 < stride
  | .poolRow _ _ _ => False
  | .slice b lo hi elided => (∀ o, a.mark ≠ some (.copy o)) ∧ b.Views s pol lo hi elided
  | .call callee _ => callee = .func ∧ a.mark = none
  | .sizedCall _ _ => a.mark = none

def Bind.Plain (pol : Policy) (s : Locals) : Bind → Prop
  | .bind _ a => a.Plain s pol
  | .decl _ _ _ | .declSlice _ | .arrayLit _ _ _ => True

def Entry.Plain : Entry → Prop
  | .sliceParam _ => True
  | .sizedParam .func _ n => 0 < n
  | .sizedParam .proc _ _ => False
  | .sizedParam .out _ _ => True
  | .column c => 1 < c.width

/-! ## Records -/

section

variable {s t : Locals} {pol : Policy} {a : Arg} {v : View} {vi : ValueInfo} {l : Local}
  {lo hi : Option Int} {elided : Bool}

/-- A record without a length register: the pointer is right, and the count if there is one. -/
def Local.Sized : Local → Prop
  | .array v vi =>
    vi.lenSsa = none →
      vi.llvmName = v.ptr ∧ 0 ≤ v.len ∧ (vi.stringLen = v.len ∨ vi.stringLen = -1)
  | .column _ => True
  | .lost _ => True

def Sized (s : Locals) : Prop := ∀ b ∈ s, b.2.Sized

theorem Sized.lookup {x : String} (h : Sized s) (hx : s.lookup x = some l) : l.Sized := by
  obtain ⟨before, after, rfl, -⟩ := List.lookup_eq_some_iff.mp hx
  exact h (x, l) (by simp)

theorem Sized.cons {x : String} (hl : l.Sized) (h : Sized s) : Sized ((x, l) :: s) :=
  List.forall_mem_cons.mpr ⟨hl, h⟩

/-- With a length that is known, the view is the one that is meant. -/
theorem emitSlice_eq_sub (v : View) :
    emitSlice ⟨v.ptr, v.len, false⟩ pol lo hi elided = v.sub pol lo hi elided := by
  unfold emitSlice View.sub
  cases elided with
  | true => rfl
  | false =>
    cases hb : bounded pol v.len (lo.getD 0) (hi.getD v.len) with
    | none => simp [hb]
    | some b => simp [hb]

theorem copied_len (m : Option Mark) : (copied vi v m).len = v.len := by
  unfold copied
  split
  · split <;> rfl
  · rfl

theorem kept_array_iff :
    (Local.array v vi).Kept ↔
      vi.llvmName = v.ptr ∧ vi.len = v.len ∧ (vi.lenSsa = none → vi.stringLen ≠ -1) := by
  unfold Local.Kept ValueInfo.sliceBase
  simp only [SliceBase.mk.injEq, Bool.and_eq_false_iff, Option.isNone_eq_false_iff,
    beq_eq_false_iff_ne]
  cases vi.lenSsa <;> simp

/-- A copy has the same pointer in the record and in the array, or neither has its own. -/
theorem copied_ptr_iff (h : (Local.array v vi).Sized) (m : Option Mark) :
    (copied vi ⟨vi.llvmName, v.len⟩ m).ptr = (copied vi v m).ptr ↔ vi.llvmName = v.ptr := by
  unfold copied
  split
  · split
    case isTrue hcopy =>
      exact ⟨fun _ => (h hcopy.2).1, fun _ => rfl⟩
    case isFalse => rfl
  · rfl

/-! ## Arguments that arrive -/

theorem exact_array_iff {x : String} {m : Option Mark} (hx : s.lookup x = some (.array v vi))
    (hsized : (Local.array v vi).Sized) :
    Exact s pol ⟨m, .name x⟩ ↔ (Local.array v vi).Kept := by
  have hpassed : Arg.passed s pol ⟨m, .name x⟩ =
      some ⟨some (copied vi ⟨vi.llvmName, v.len⟩ m).ptr, some vi.len⟩ := by
    simp only [Arg.passed, Arg.buf, hx]
  have hdenote : Arg.denote s pol ⟨m, .name x⟩ = some (copied vi v m) := by
    simp only [Arg.denote, hx, Option.map_some]
  rw [Exact, hpassed, hdenote, Option.map_some, View.passed, Option.some_inj, Passed.mk.injEq,
    Option.some_inj, Option.some_inj, copied_ptr_iff hsized, copied_len, kept_array_iff]
  constructor
  · rintro ⟨hptr, hlen⟩
    refine ⟨hptr, hlen, fun hnone hcount => ?_⟩
    have hnonneg := (hsized hnone).2.1
    have hself : vi.len = vi.stringLen := by
      unfold ValueInfo.len
      rw [hnone, Option.getD_none]
    omega
  · exact fun h => ⟨h.1, h.2.1⟩

theorem exact_column_iff {x : String} {m : Option Mark} {c : Column}
    (hx : s.lookup x = some (.column c)) :
    Exact s pol ⟨m, .name x⟩ ↔ m = none ∧ 1 < c.width := by
  have hdenote : Arg.denote s pol ⟨m, .name x⟩ = some c.view := by
    simp only [Arg.denote, hx, Option.map_some, Local.view]
  rw [Exact, hdenote]
  simp only [Arg.passed, Arg.buf, hx]
  split
  case isTrue h =>
    simp [h, View.passed, Column.view]
  case isFalse h =>
    simp [h, View.passed]

theorem exact_name_iff {x : String} {m : Option Mark} (hsized : Sized s) :
    Exact s pol ⟨m, .name x⟩ ↔ Arg.Carried s pol ⟨m, .name x⟩ := by
  unfold Arg.Carried
  dsimp only
  cases hx : s.lookup x with
  | none => simp [Exact, Arg.passed, Arg.denote, hx]
  | some l =>
    simp only [Option.some.injEq, forall_eq']
    cases l with
    | array v vi => simp [exact_array_iff hx (hsized.lookup hx)]
    | column c =>
      rw [exact_column_iff hx]
      simp [Local.Kept, and_comm]
    | lost v => simp [Exact, Arg.passed, Arg.denote, Local.Kept, View.passed, hx]

theorem passed_injective : Function.Injective (Option.map View.passed) := by
  refine Option.map_injective fun v w h => ?_
  simpa [View.passed, View.ext_iff] using h

theorem exact_slice_of_base {b : Base} {m : Option Mark} {base : SliceBase}
    (hbase : b.sliceBase s = some base) (hview : b.view s = some v) :
    Exact s pol ⟨m, .slice b lo hi elided⟩ ↔
      emitSlice base pol lo hi elided = v.sub pol lo hi elided := by
  simp only [Exact, Arg.passed, Arg.denote, hbase, hview, Option.bind_some]
  exact passed_injective.eq_iff

/-- A base that is not known leaves a null pointer and no length. -/
theorem not_exact_slice {b : Base} {m : Option Mark} (hbase : b.sliceBase s = none) :
    ¬Exact s pol ⟨m, .slice b lo hi elided⟩ := by
  simp only [Exact, Arg.passed, Arg.denote, hbase]
  cases (b.view s).bind fun v => v.sub pol lo hi elided <;> simp [View.passed]

theorem exact_slice_name_iff {x : String} {m : Option Mark} :
    Exact s pol ⟨m, .slice (.name x) lo hi elided⟩ ↔ (Base.name x).Views s pol lo hi elided := by
  show _ ↔ ∃ l, s.lookup x = some l ∧ l.Views pol lo hi elided
  cases hx : s.lookup x with
  | none =>
    have hbase : (Base.name x).sliceBase s = none := by simp only [Base.sliceBase, hx]
    exact iff_of_false (not_exact_slice hbase) (by simp)
  | some l =>
    simp only [Option.some.injEq, exists_eq_left']
    have hview : (Base.name x).view s = some l.view := by
      simp only [Base.view, hx, Option.map_some]
    cases l with
    | array v vi =>
      have hbase : (Base.name x).sliceBase s = some vi.sliceBase := by
        simp only [Base.sliceBase, hx]
      exact exact_slice_of_base hbase hview
    | column c =>
      by_cases hwidth : 1 < c.width
      · have hbase : (Base.name x).sliceBase s = some ⟨c.view.ptr, c.view.len, false⟩ := by
          simp only [Base.sliceBase, hx, Nat.not_le.mpr hwidth, if_false, Column.view]
        rw [exact_slice_of_base hbase hview]
        exact iff_of_true (emitSlice_eq_sub c.view) hwidth
      · have hbase : (Base.name x).sliceBase s = none := by
          simp only [Base.sliceBase, hx, Nat.not_lt.mp hwidth, if_true]
        exact iff_of_false (not_exact_slice hbase) hwidth
    | lost v =>
      have hbase : (Base.name x).sliceBase s = none := by simp only [Base.sliceBase, hx]
      exact iff_of_false (not_exact_slice hbase) id

theorem exact_slice_iff {b : Base} {m : Option Mark} :
    Exact s pol ⟨m, .slice b lo hi elided⟩ ↔ b.Views s pol lo hi elided := by
  cases b with
  | name x => exact exact_slice_name_iff
  | staticArray st =>
    by_cases hchar : st.isChar
    · have hbase : (Base.staticArray st).sliceBase s = some ⟨st.view.ptr, st.view.len, false⟩ := by
        simp [Base.sliceBase, hchar, StaticArray.info, ValueInfo.sliceBase, ValueInfo.len,
          StaticArray.view]
      rw [exact_slice_of_base hbase rfl]
      exact iff_of_true (emitSlice_eq_sub st.view) hchar
    · exact iff_of_false (not_exact_slice (by simp [Base.sliceBase, hchar])) hchar
  | pool o n isStatic =>
    cases isStatic with
    | true =>
      rw [exact_slice_of_base (s := s) rfl rfl]
      exact iff_of_true (emitSlice_eq_sub ⟨.elem o 0, n⟩) rfl
    | false => exact iff_of_false (not_exact_slice rfl) Bool.false_ne_true
  | other v => exact iff_of_false (not_exact_slice rfl) id

theorem exact_staticArray_iff {st : StaticArray} {m : Option Mark} :
    Exact s pol ⟨m, .staticArray st⟩ ↔ st.isChar ∨ m = none := by
  have hlen : st.info.len = st.view.len := rfl
  by_cases hchar : st.isChar
  · simp [Exact, Arg.passed, Arg.denote, Arg.buf, hchar, View.passed, copied_len, hlen]
  · by_cases hmark : m = none
    · simp [Exact, Arg.passed, Arg.denote, hchar, hmark, View.passed, StaticArray.view]
    · simp [Exact, Arg.passed, Arg.denote, hchar, hmark]

/-- Which arguments arrive as they are, in a state whose records are sized. -/
theorem exact_iff_of_sized (hsized : Sized s) : Exact s pol a ↔ a.Carried s pol := by
  obtain ⟨m, f⟩ := a
  cases f with
  | name x => exact exact_name_iff hsized
  | staticArray st => exact exact_staticArray_iff
  | string o n =>
    cases m <;> simp [Exact, Arg.passed, Arg.denote, Arg.buf, Arg.Carried, View.passed, eq_comm]
  | row o stride i =>
    by_cases hstride : 1 < stride <;>
      simp [Exact, Arg.passed, Arg.denote, Arg.buf, Arg.Carried, View.passed, rowView, hstride]
  | poolRow o width i => simp [Exact, Arg.passed, Arg.denote, Arg.Carried, View.passed]
  | slice b lo hi elided => exact exact_slice_iff
  | call callee v =>
    cases callee <;> simp [Exact, Arg.passed, Arg.denote, Arg.Carried, View.passed]
  | sizedCall p n => simp [Exact, Arg.passed, Arg.denote, Arg.Carried, View.passed]

theorem StaticArray.copied_len (st : StaticArray) (m : Option Mark) :
    (if st.isChar then copied st.info st.view m else st.view).len = st.size := by
  split
  · exact SliceArgs.copied_len m
  · rfl

/-! ## Runs of bindings -/

theorem sized_bound (hsized : Sized s) (hv : a.denote s pol = some v) :
    (a.bound s pol v).Sized := by
  unfold Arg.bound
  cases hrec : a.record s pol with
  | none => trivial
  | some vi =>
    intro hssa
    obtain ⟨m, f⟩ := a
    cases f with
    | name x =>
      cases hx : s.lookup x with
      | none => simp [Arg.record, hx] at hrec
      | some l =>
        cases l with
        | array w wi =>
          simp only [Arg.denote, Arg.record, Arg.buf, hx, Option.map_some,
            Option.some.injEq] at hv hrec
          subst hv hrec
          have hold := hsized.lookup hx hssa
          have hptr := (copied_ptr_iff (hsized.lookup hx) m).mpr hold.1
          exact ⟨hptr, by rw [copied_len]; exact hold.2⟩
        | column c => simp [Arg.record, hx] at hrec
        | lost w => simp [Arg.record, hx] at hrec
    | staticArray st =>
      simp only [Arg.denote, Arg.record, Arg.buf, Option.map_some, Option.ite_none_right_eq_some,
        Option.some.injEq] at hv hrec
      obtain ⟨-, rfl⟩ := hrec
      subst hv
      exact ⟨rfl, by rw [st.copied_len m]; exact ⟨Int.natCast_nonneg _, .inl rfl⟩⟩
    | string o n =>
      simp only [Arg.denote, Arg.record, Option.ite_none_right_eq_some,
        Option.some.injEq] at hv hrec
      obtain ⟨-, rfl⟩ := hrec
      subst hv
      exact ⟨rfl, Int.natCast_nonneg _, .inl rfl⟩
    | row o stride i =>
      simp only [Arg.record, Option.ite_none_right_eq_some, Option.some.injEq] at hrec
      obtain ⟨-, rfl⟩ := hrec
      exact nomatch hssa
    | poolRow o width i =>
      simp only [Arg.denote, Arg.record, Option.ite_none_right_eq_some,
        Option.some.injEq] at hv hrec
      obtain ⟨-, rfl⟩ := hrec
      subst hv
      exact ⟨rfl, Int.natCast_nonneg _, .inr rfl⟩
    | slice b lo hi elided =>
      simp only [Arg.record] at hrec
      split at hrec
      · exact nomatch hrec
      · simp only [Option.bind_eq_bind, Option.bind_eq_some_iff, Option.some.injEq] at hrec
        obtain ⟨base, -, w, -, rfl⟩ := hrec
        exact nomatch hssa
    | call callee w =>
      cases callee with
      | func =>
        simp only [Arg.record, Option.ite_none_right_eq_some, Option.some.injEq] at hrec
        obtain ⟨-, rfl⟩ := hrec
        exact nomatch hssa
      | group => exact nomatch hrec
    | sizedCall p n =>
      simp only [Arg.denote, Arg.record, Option.ite_none_right_eq_some,
        Option.some.injEq] at hv hrec
      obtain ⟨-, rfl⟩ := hrec
      subst hv
      exact ⟨rfl, Int.natCast_nonneg _, .inl rfl⟩

theorem counted_sized (o n : Nat) : (counted o n).Sized :=
  fun _ => ⟨rfl, Int.natCast_nonneg _, .inl rfl⟩

theorem sized_step {b : Bind} (hsized : Sized s) (h : Step pol s b t) : Sized t := by
  cases b with
  | decl x o n =>
    cases h
    exact hsized.cons (counted_sized o n)
  | declSlice x =>
    cases h
    exact hsized.cons fun hssa => nomatch hssa
  | arrayLit x o n =>
    cases h
    exact hsized.cons (counted_sized o n)
  | bind x a =>
    obtain ⟨v, hv, rfl⟩ := Option.map_eq_some_iff.mp h
    exact hsized.cons (sized_bound hsized hv)

theorem Param.stringLen_or (kind : Param) (n : Nat) :
    kind.stringLen n = n ∨ kind.stringLen n = -1 := by
  cases kind with
  | func => exact ite_eq_or_eq _ _ _
  | proc => exact .inr rfl
  | out => exact .inl rfl

theorem outset_sized (es : List (String × Entry)) : Sized (outset es) := by
  refine List.forall_mem_map.mpr fun e _ => ?_
  cases he : e.2 with
  | sliceParam v => exact fun hssa => nomatch hssa
  | sizedParam kind p n => exact fun _ => ⟨rfl, Int.natCast_nonneg _, kind.stringLen_or n⟩
  | column c => trivial

theorem run_sized {es : List (String × Entry)} {bs : List Bind}
    (h : Run (Step pol) (outset es) bs s) : Sized s :=
  h.inv Sized (outset_sized es) fun _ _ _ => sized_step

theorem emitted_of_exact {b : Base} {m : Option Mark}
    (hexact : Exact s pol ⟨m, .slice b lo hi elided⟩)
    (hv : Arg.denote s pol ⟨m, .slice b lo hi elided⟩ = some v) :
    ∃ base, b.sliceBase s = some base ∧ emitSlice base pol lo hi elided = some v := by
  cases hbase : b.sliceBase s with
  | none => exact absurd hexact (not_exact_slice hbase)
  | some base =>
    refine ⟨base, rfl, passed_injective ?_⟩
    rw [Exact, hv] at hexact
    simpa only [Arg.passed, hbase] using hexact

/-- A plain binding makes a record, and the record is the array. -/
theorem kept_bound (hsized : Sized s) (hkept : ∀ b ∈ s, b.2.Kept) (hplain : a.Plain s pol)
    (hv : a.denote s pol = some v) : (a.bound s pol v).Kept := by
  obtain ⟨m, f⟩ := a
  have hrecord {vi : ValueInfo} (hrec : Arg.record s pol ⟨m, f⟩ = some vi)
      (h : (Local.array v vi).Kept) : (Arg.bound s pol ⟨m, f⟩ v).Kept := by
    unfold Arg.bound
    rwa [hrec]
  cases f with
  | name x =>
    obtain ⟨w, wi, hx⟩ := hplain
    have hold := hsized.lookup hx
    obtain ⟨before, after, hs, -⟩ := List.lookup_eq_some_iff.mp hx
    have hw := kept_array_iff.mp (hkept (x, .array w wi) (by simp [hs]))
    simp only [Arg.denote, hx, Option.map_some, Option.some.injEq] at hv
    subst hv
    refine hrecord (by simp only [Arg.record, Arg.buf, hx, Option.map_some]; rfl) ?_
    rw [kept_array_iff, copied_len]
    exact ⟨(copied_ptr_iff hold m).mpr hw.1, hw.2⟩
  | staticArray st =>
    cases hv
    refine hrecord (if_pos hplain) ?_
    rw [kept_array_iff]
    refine ⟨rfl, (st.copied_len m).symm, fun _ hcount => ?_⟩
    exact absurd hcount (by simp [StaticArray.info])
  | string o n =>
    cases hv
    refine hrecord (if_pos hplain) (kept_array_iff.mpr ⟨rfl, rfl, fun _ hcount => ?_⟩)
    exact absurd hcount (by simp)
  | row o stride i =>
    cases hv
    exact hrecord (if_pos hplain) (kept_array_iff.mpr ⟨rfl, rfl, fun hssa => nomatch hssa⟩)
  | poolRow o width i => exact hplain.elim
  | slice b lo hi elided =>
    obtain ⟨hmark, hviews⟩ := hplain
    obtain ⟨base, hbase, hemit⟩ := emitted_of_exact (exact_slice_iff.mpr hviews) hv
    have hrec : Arg.record s pol ⟨m, .slice b lo hi elided⟩ =
        some { llvmName := v.ptr, lenSsa := some v.len } := by
      cases m with
      | none => simp [Arg.record, hbase, hemit]
      | some mark =>
        cases mark with
        | move => simp [Arg.record, hbase, hemit]
        | copy o => exact absurd rfl (hmark o)
    exact hrecord hrec (kept_array_iff.mpr ⟨rfl, rfl, fun hssa => nomatch hssa⟩)
  | call callee w =>
    obtain ⟨rfl, hmark⟩ := hplain
    cases hv
    exact hrecord (if_pos hmark) (kept_array_iff.mpr ⟨rfl, rfl, fun hssa => nomatch hssa⟩)
  | sizedCall p n =>
    cases hv
    refine hrecord (if_pos hplain) (kept_array_iff.mpr ⟨rfl, rfl, fun _ hcount => ?_⟩)
    exact absurd hcount (by simp)

theorem counted_kept (o n : Nat) : (counted o n).Kept := by
  refine kept_array_iff.mpr ⟨rfl, rfl, fun _ hcount => ?_⟩
  exact absurd hcount (by simp)

theorem kept_step {b : Bind} (h : Sized s ∧ ∀ l ∈ s, l.2.Kept)
    (hstep : Guarded (Step pol) (fun s b => b.Plain pol s) s b t) :
    Sized t ∧ ∀ l ∈ t, l.2.Kept := by
  refine ⟨sized_step h.1 hstep.1, ?_⟩
  obtain ⟨hrun, hplain⟩ := hstep
  cases b with
  | decl x o n =>
    cases hrun
    exact List.forall_mem_cons.mpr ⟨counted_kept o n, h.2⟩
  | declSlice x =>
    cases hrun
    refine List.forall_mem_cons.mpr ⟨?_, h.2⟩
    exact kept_array_iff.mpr ⟨rfl, rfl, fun hssa => nomatch hssa⟩
  | arrayLit x o n =>
    cases hrun
    exact List.forall_mem_cons.mpr ⟨counted_kept o n, h.2⟩
  | bind x a =>
    obtain ⟨v, hv, rfl⟩ := Option.map_eq_some_iff.mp hrun
    exact List.forall_mem_cons.mpr ⟨kept_bound h.1 h.2 hplain hv, h.2⟩

theorem outset_kept {es : List (String × Entry)} (hes : ∀ e ∈ es, e.2.Plain) :
    ∀ l ∈ outset es, l.2.Kept := by
  refine List.forall_mem_map.mpr fun e he => ?_
  have hplain := hes e he
  cases hentry : e.2 with
  | sliceParam v => exact kept_array_iff.mpr ⟨rfl, rfl, fun hssa => nomatch hssa⟩
  | sizedParam kind p n =>
    rw [hentry] at hplain
    have hn : kind.stringLen n = n := by
      cases kind with
      | func => exact if_pos hplain
      | proc => exact hplain.elim
      | out => rfl
    refine kept_array_iff.mpr ⟨rfl, hn, fun _ hcount => ?_⟩
    exact absurd (hn.symm.trans hcount) (by simp)
  | column c =>
    rw [hentry] at hplain
    exact hplain

/-- After plain bindings every record is the array of its variable. -/
theorem run_kept {es : List (String × Entry)} {bs : List Bind} (hes : ∀ e ∈ es, e.2.Plain)
    (h : Run (Guarded (Step pol) fun s b => b.Plain pol s) (outset es) bs s) :
    ∀ l ∈ s, l.2.Kept :=
  (h.inv (fun s => Sized s ∧ ∀ l ∈ s, l.2.Kept) ⟨outset_sized es, outset_kept hes⟩
    fun _ _ _ => kept_step).2

/-- In every state a body reaches, an argument arrives with its first element and its length
exactly if it is carried. Where every binding was plain, every array that was bound is. -/
theorem passed_exact_iff {es : List (String × Entry)} {bs : List Bind}
    (h : Run (Step pol) (outset es) bs s) :
    (∀ a, Exact s pol a ↔ a.Carried s pol) ∧
      ((∀ e ∈ es, e.2.Plain) → Run (Guarded (Step pol) fun s b => b.Plain pol s) (outset es) bs s →
        ∀ l ∈ s, l.2.Kept) :=
  ⟨fun _ => exact_iff_of_sized (run_sized h), fun hes hplain => run_kept hes hplain⟩

end

/-- `buf: [4]int`, then `f(buf)`. -/
theorem passed_exact_iff_buf :
    let s : Locals := [("buf", counted 0 4)]
    let pol : Policy := fun _ i => some i
    (∀ a, Exact s pol a ↔ a.Carried s pol) ∧
      ((∀ e ∈ ([] : List (String × Entry)), e.2.Plain) →
        Run (Guarded (Step pol) fun s b => b.Plain pol s) (outset []) [.decl "buf" 0 4] s →
        ∀ l ∈ s, l.2.Kept) :=
  passed_exact_iff (show Run (Step _) (outset []) [.decl "buf" 0 4] _ from .snoc .nil rfl)

/-- `row := Pool.col[2]` for rows of 32 elements: `f(row)` passes the length -1. And
`f(copy "abc")` passes 0. -/
theorem not_passed_exact :
    let pol : Policy := fun _ i => some i
    let s : Locals := [("row", .array ⟨.elem 0 64, 32⟩ { llvmName := .elem 0 64 })]
    Run (Step pol) (outset []) [.bind "row" ⟨none, .poolRow 0 32 2⟩] s ∧
      Arg.passed s pol ⟨none, .name "row"⟩ = some ⟨some (.elem 0 64), some (-1)⟩ ∧
      ¬Exact s pol ⟨none, .name "row"⟩ ∧ ¬Exact s pol ⟨some (.copy 2), .string 1 3⟩ := by
  refine ⟨.snoc .nil rfl, rfl, ?_, ?_⟩
  · unfold Exact
    decide
  · unfold Exact
    decide

end Arche.Codegen.SliceArgs
