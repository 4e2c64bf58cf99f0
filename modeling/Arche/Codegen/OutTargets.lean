import Arche.Codegen.IntExpr
import Arche.Lib.Memory

/-!
# Out-targets

`f(in)(out)` names for every result of `f` a new local (`x:`) or a place that exists (`x`). An
external returns its one result; a procedure stores its results through pointers to the places it is
given; the members of what a function returns are stored one by one; the run of an effect comes to
one external, or binds new locals. An array that is also an input is filled where it lies. Each of
these has its own way from the name of a place to an address.

Storage is memory as bits. Pointers have no types: a store of a width other than the place's is a
store to fewer or more bits.

1. `Call.dest`: where the code puts a result. `Env.place`: the place a name stands for.
2. `Call.Writes`: after every run of the call each place holds its result, converted to the type of
   the place, and no other storage is changed.
3. `writes_iff`: which calls these are.
4. `not_writes`: a procedure whose target is a column of row 1 fills row 0.
-/

namespace Arche.Codegen.OutTargets

open Arche.Lib IntExpr

/-! ## Storage -/

/-- The storage of a name, or memory that array variables point into. -/
inductive Obj
  | named (x : String)
  | block (b : Nat)
deriving DecidableEq, Repr

/-- What a name stands for. A column is the row its fan is at. -/
inductive Var
  /-- A local or an out-parameter, and the bits its slot was given. -/
  | scalar (ty : IntTy) (alloc : Nat)
  /-- A parameter, or a column of a `[1]` pool beside the one the fan runs over. -/
  | param (ty : IntTy)
  | global (ty : IntTy)
  | column (ty : IntTy) (row rows : Nat)
  /-- An array variable: `len` elements from bit `off` of a block on. A static array of `char` is
  one. -/
  | array (ty : IntTy) (len block off : Nat)
  | arrayColumn (ty : IntTy) (len row rows : Nat)
  | staticArray (ty : IntTy) (len : Nat)
deriving DecidableEq, Repr

def Var.isArray : Var → Bool
  | .array .. | .arrayColumn .. | .staticArray .. => true
  | _ => false

/-- The rows of a pool hold the current one, an array variable stays inside of its block. A column
of arrays of one element is a column of scalars. -/
def Var.Fits (blockSize : Nat → Nat) : Var → Prop
  | .column _ row rows => row < rows
  | .array ty len block off => off + len * ty.width ≤ blockSize block
  | .arrayColumn _ len row rows => 1 < len ∧ row < rows
  | _ => True

structure Env where
  var : String → Var
  blockSize : Nat → Nat
  fits : ∀ x, (var x).Fits blockSize

def Var.size : Var → Nat
  | .scalar _ alloc => alloc
  | .param ty | .global ty => ty.width
  | .column ty _ rows => rows * ty.width
  | .array .. => 0
  | .arrayColumn ty len _ rows => rows * (len * ty.width)
  | .staticArray ty len => len * ty.width

def Env.size (env : Env) : Obj → Nat
  | .named x => (env.var x).size
  | .block b => env.blockSize b

/-- `len` elements from bit `off` on. -/
structure Place where
  obj : Obj
  off : Nat
  ty : IntTy
  len : Nat

def Place.cell (p : Place) (k : Nat) : Cell Obj := ⟨p.obj, p.off + k * p.ty.width, p.ty.width⟩

/-- The place a name stands for. -/
def Env.place (env : Env) (x : String) : Place :=
  match env.var x with
  | .scalar ty _ | .param ty | .global ty => ⟨.named x, 0, ty, 1⟩
  | .column ty row _ => ⟨.named x, row * ty.width, ty, 1⟩
  | .array ty len block off => ⟨.block block, off, ty, len⟩
  | .arrayColumn ty len row _ => ⟨.named x, row * (len * ty.width), ty, len⟩
  | .staticArray ty len => ⟨.named x, 0, ty, len⟩

/-! ## Calls -/

inductive Form
  | scalar
  | sized (len : Nat)
  /-- `[]T`, and the number of elements there are. -/
  | unbounded (len : Nat)
deriving DecidableEq, Repr

def Form.len : Form → Nat
  | .scalar => 1
  | .sized len | .unbounded len => len

def Form.isArray : Form → Bool
  | .scalar => false
  | _ => true

/-- What is given for an input that is a result as well. -/
inductive InArg
  /-- `_` -/
  | placeholder
  /-- `copy y` -/
  | copied (y : String)
  /-- `y` or `move y` -/
  | named (y : String)
  /-- A slice, or what a call returned. -/
  | lent (block off : Nat)
deriving DecidableEq, Repr

inductive Target
  /-- `x:`, with a sized type of its own if `spelled`. The name may be `_`. -/
  | fresh (x : String) (spelled : Bool)
  | existing (x : String)
deriving DecidableEq, Repr

/-- A result of the callee, of elements of type `ty`, and its target. Without an element there is
nothing to write. -/
structure Slot where
  ty : IntTy
  form : Form
  pos : 0 < form.len
  /-- For a result that is an input as well. -/
  inArg : Option InArg
  target : Target

inductive Path
  /-- An external, or an effect that comes to one; with a finalizer the result is what that
  returns. -/
  | ext
  | proc
  /-- A function with several results. -/
  | func
  /-- The effects of a product, with or without a finalizer. -/
  | zip
  /-- An effect whose finalizer takes the buffer an external fills. -/
  | bufferFold
  /-- `insert` and `delete`. -/
  | builtin
deriving DecidableEq, Repr

/-- Externals have at most one result that is not an input; only externals and procedures have
results that are. `insert` and `delete` give a handle and an `ok`. -/
def Path.Accepts {n : Nat} (slot : Fin n → Slot) : Path → Prop
  | .ext => ∀ i j, (slot i).inArg = none → (slot j).inArg = none → i = j
  | .proc => True
  | .builtin => ∀ i, (slot i).inArg = none ∧ (slot i).form = .scalar
  | _ => ∀ i, (slot i).inArg = none

/-- A statement `f(in)(out)`. -/
structure Call where
  env : Env
  path : Path
  count : Nat
  slot : Fin count → Slot
  accepted : path.Accepts slot

/-! ## The emitted code -/

/-- What the code generator keeps for a name: a register, or an address. -/
inductive Entry
  | register
  | slot (obj : Obj)
  /-- The first row, and the row of the fan. -/
  | column (obj : Obj) (row : Nat)
  | pointer (obj : Obj) (off : Nat)
deriving DecidableEq, Repr

def Env.findValue (env : Env) (x : String) : Option Entry :=
  match env.var x with
  | .scalar .. => some (.slot (.named x))
  | .param _ => some .register
  | .column _ row _ | .arrayColumn _ _ row _ => some (.column (.named x) row)
  | .array _ _ block off => some (.pointer (.block block) off)
  | .global _ | .staticArray .. => none

/-- Where a result goes. -/
inductive Dest
  /-- No module is emitted, or one that is refused. -/
  | refused
  | null
  /-- Storage of the call's own, or none. -/
  | nowhere
  /-- The elements, from here on. -/
  | elements (obj : Obj) (off : Nat)
  /-- The address of an array, or that and its length. -/
  | reference (obj : Obj) (off width : Nat)
deriving DecidableEq, Repr

/-- What is stored through a pointer to a result. -/
def Form.through (f : Form) (obj : Obj) (off : Nat) : Dest :=
  match f with
  | .scalar | .sized _ => .elements obj off
  | .unbounded _ => .reference obj off 128

/-- An existing target of a result that is not an input. -/
def Env.outOnly (env : Env) (path : Path) (s : Slot) (x : String) : Dest :=
  match path, s.form, env.findValue x with
  | .ext, .scalar, some (.slot obj) => .elements obj 0
  -- the row is counted in elements of the type of the result
  | .ext, .scalar, some (.column obj row) => .elements obj (row * s.ty.width)
  | .ext, .sized _, some (.slot obj) => .reference obj 0 64
  | .ext, .sized _, some (.column obj row) => .reference obj (row * 64) 64
  -- the external returns the address alone
  | .ext, .unbounded _, some (.slot _) | .ext, .unbounded _, some (.column ..) => .refused
  | .proc, _, none => .null
  | .proc, _, some .register => .refused
  -- the address of a column is that of its first row
  | .proc, f, some (.slot obj) | .proc, f, some (.column obj _) => f.through obj 0
  | .proc, f, some (.pointer obj off) => f.through obj off
  | .func, .scalar, some .register => .refused
  | .func, .scalar, some (.slot obj) | .func, .scalar, some (.column obj _) => .elements obj 0
  | .func, .scalar, some (.pointer obj off) => .elements obj off
  -- an array is bound as a new name, whatever its target
  | .func, _, _ => .nowhere
  | .builtin, _, some (.slot obj) => .elements obj 0
  -- dropped, or bound as a new name
  | _, _, _ => .nowhere

/-- An array is lent by its address; of a scalar only the value is passed. -/
def Env.lend (env : Env) (y : String) : Dest :=
  if (env.var y).isArray then .elements (env.place y).obj (env.place y).off else .refused

/-- The buffer of a new target is made before the call where its size is known. -/
def Slot.allocated (s : Slot) : Bool :=
  match s.target, s.form with
  | .fresh x _, .sized _ => x ≠ "_"
  | .fresh x spelled, .unbounded _ => x ≠ "_" ∧ spelled
  | _, _ => false

/-- A result that is an input as well. `_` is read as the name of the target, and a `copy` of the
target is left out. -/
def Env.inOut (env : Env) (s : Slot) (a : InArg) : Dest :=
  match s.form, s.target, a with
  | .scalar, .fresh .., .placeholder => .refused
  | .scalar, _, _ => .nowhere
  | _, .existing x, .placeholder => env.lend x
  | _, .existing x, .copied y => if y = x then env.lend x else .nowhere
  | _, .existing _, .named y => env.lend y
  | _, .fresh .., .placeholder => if s.allocated then .nowhere else .refused
  | _, .fresh x _, .copied y => if y = x ∧ ¬s.allocated then env.lend y else .nowhere
  | _, .fresh x _, .named y => if y = x ∧ s.allocated then .nowhere else env.lend y
  | _, _, .lent block off => .elements (.block block) off

def Call.dest (c : Call) (i : Fin c.count) : Dest :=
  match (c.slot i).inArg, (c.slot i).target with
  | some a, _ => c.env.inOut (c.slot i) a
  | none, .existing x => c.env.outOnly c.path (c.slot i) x
  | none, .fresh .. => .nowhere

/-! ## Runs -/

/-- An element of a result. -/
abbrev Call.Key (c : Call) : Type := Fin c.count × Nat

/-- A store past the end of an object is not defined. -/
def Env.store (env : Env) (m : Memory Obj) (cell : Cell Obj) (v : Int) : Option (Memory Obj) :=
  if cell.off + cell.width ≤ env.size cell.obj then some (m.store cell v) else none

variable (c : Call)

/-- The cell of an element. -/
def Call.cell (key : c.Key) : Option (Cell Obj) :=
  match c.dest key.1 with
  | .elements obj off => some ⟨obj, off + key.2 * (c.slot key.1).ty.width, (c.slot key.1).ty.width⟩
  | _ => none

/-- The store of an element. `view` are the addresses and lengths of arrays that are returned. -/
def Call.store (view : Fin c.count → Int) (m : Memory Obj) (e : c.Key × Int) :
    Option (Memory Obj) :=
  match c.dest e.1.1 with
  | .refused | .null => none
  | .nowhere => some m
  | .elements obj off =>
    let width := (c.slot e.1.1).ty.width
    c.env.store m ⟨obj, off + e.1.2 * width, width⟩ e.2
  | .reference obj off width => c.env.store m ⟨obj, off, width⟩ (view e.1.1)

def Call.run (view : Fin c.count → Int) (m : Memory Obj) (l : List (c.Key × Int)) :
    Option (Memory Obj) :=
  if ∃ i, c.dest i = .refused then none else l.foldlM (c.store view) m

/-- A result the callee stores itself, when and as often as it likes. -/
def Call.Direct (i : Fin c.count) : Prop :=
  c.path = .proc ∨ c.path = .builtin ∨ (c.slot i).inArg ≠ none

instance (i : Fin c.count) : Decidable (c.Direct i) := inferInstanceAs (Decidable (_ ∨ _))

/-- The elements that are stored after the call, one after the other. -/
def Call.returned : List c.Key :=
  ((List.finRange c.count).filter (¬c.Direct ·)).flatMap fun i =>
    (List.range (c.slot i).form.len).map fun k => (i, k)

def Call.Valid (key : c.Key) : Prop := key.2 < (c.slot key.1).form.len

/-- The stores of a run: those of the callee, then one for each element of what it returned. -/
def Call.Admits (l : List (c.Key × Int)) : Prop :=
  ∃ (direct : List (c.Key × Int)) (r : c.Key → Int),
    (∀ e ∈ direct, c.Direct e.1.1 ∧ c.Valid e.1) ∧ l = direct ++ Memory.giving r c.returned

/-! ## What the source says -/

/-- The places hold what was stored last for them, and other storage is as before. -/
structure Call.Written (l : List (c.Key × Int)) (m m' : Memory Obj) : Prop where
  holds : ∀ i x, (c.slot i).target = .existing x → ∀ k v, lastOf (i, k) l = some v →
    m'.Holds ((c.env.place x).cell k) ((c.slot i).ty.wrap v)
  other : ∀ o b, (∀ e ∈ l, ∀ x, (c.slot e.1.1).target = .existing x →
    ¬((c.env.place x).cell e.1.2).Has o b) → m' o b = m o b

/-- The result is one for the place: scalars go to scalars, arrays to arrays that are as long. -/
def Slot.TakenBy (s : Slot) (env : Env) (x : String) : Prop :=
  (env.var x).isArray = s.form.isArray ∧ s.form.len ≤ (env.place x).len

/-- The out-targets of the call write the places they name. -/
structure Call.Writes : Prop where
  taken : ∀ i x, (c.slot i).target = .existing x → (c.slot i).TakenBy c.env x
  written : ∀ view l, c.Admits l → ∀ m, ∃ m', c.run view m l = some m' ∧ c.Written l m m'

/-! ## The condition -/

/-- The existing places a path has the address of. -/
def Path.Reaches : Path → Form → Var → Prop
  | .ext, .scalar, .scalar .. | .ext, .scalar, .column .. => True
  | .proc, .scalar, .scalar .. | .func, .scalar, .scalar .. | .builtin, .scalar, .scalar .. => True
  | .proc, .scalar, .column _ row _ | .func, .scalar, .column _ row _ => row = 0
  | .proc, .sized _, .array .. => True
  | .proc, .sized _, .arrayColumn _ _ row _ => row = 0
  | _, _, _ => False

/-- What is given for the input is the place itself. -/
def Env.Passes (env : Env) (x : String) : InArg → Prop
  | .placeholder => True
  | .copied y => y = x
  | .named y =>
    (env.var y).isArray ∧ (env.place y).obj = (env.place x).obj ∧
      (env.place y).off = (env.place x).off
  | .lent block off => (env.place x).obj = .block block ∧ (env.place x).off = off

def Slot.Reached (s : Slot) (env : Env) (path : Path) (x : String) : Prop :=
  match s.inArg with
  | none => path.Reaches s.form (env.var x)
  | some a => s.form.isArray ∧ env.Passes x a

/-- The callee of a new target is given no storage that exists. -/
def Slot.Spares (s : Slot) (x : String) : Prop :=
  match s.inArg with
  | none => True
  | some .placeholder => s.allocated
  | some (.copied y) => s.form.isArray → y = x → s.allocated
  | some (.named y) => s.form.isArray → y = x ∧ s.allocated
  | some (.lent ..) => ¬s.form.isArray

/-- Each existing target is a place of the kind, the width and the length of the result that the
path finds, and no two share storage. -/
structure Call.Met (c : Call) : Prop where
  taken : ∀ i x, (c.slot i).target = .existing x → (c.slot i).TakenBy c.env x
  width : ∀ i x, (c.slot i).target = .existing x →
    (c.env.place x).ty.width = (c.slot i).ty.width
  room : ∀ i x ty alloc, (c.slot i).target = .existing x → c.env.var x = .scalar ty alloc →
    ty.width ≤ alloc
  reached : ∀ i x, (c.slot i).target = .existing x → (c.slot i).Reached c.env c.path x
  spares : ∀ i x spelled, (c.slot i).target = .fresh x spelled → (c.slot i).Spares x
  apart : ∀ i j x y k l, i ≠ j → (c.slot i).target = .existing x →
    (c.slot j).target = .existing y → c.Valid (i, k) → c.Valid (j, l) →
    ((c.env.place x).cell k).Disjoint ((c.env.place y).cell l)

/-! ## Calls that meet it -/

section

variable {env : Env} {path : Path} {s : Slot} {x : String}

theorem Env.lend_of_isArray {y : String} (h : (env.var y).isArray) :
    env.lend y = .elements (env.place y).obj (env.place y).off := if_pos h

theorem Env.outOnly_of_reaches (h : path.Reaches s.form (env.var x))
    (hwidth : (env.place x).ty.width = s.ty.width) :
    env.outOnly path s x = .elements (env.place x).obj (env.place x).off := by
  unfold Path.Reaches at h
  unfold Env.place at hwidth
  split at h
  all_goals simp_all [Env.outOnly, Env.findValue, Env.place, Form.through]

theorem Env.inOut_of_passes {a : InArg} (htarget : s.target = .existing x)
    (harr : s.form.isArray) (hvar : (env.var x).isArray) (h : env.Passes x a) :
    env.inOut s a = .elements (env.place x).obj (env.place x).off := by
  cases hform : s.form with
  | scalar =>
    rw [hform] at harr
    cases harr
  | sized n | unbounded n =>
    cases a with
    | placeholder => simp only [Env.inOut, hform, htarget, Env.lend_of_isArray hvar]
    | copied y =>
      obtain rfl : y = x := h
      simp only [Env.inOut, hform, htarget, Env.lend_of_isArray hvar, if_true]
    | named y =>
      obtain ⟨hy, hobj, hoff⟩ := h
      simp only [Env.inOut, hform, htarget, Env.lend_of_isArray hy, hobj, hoff]
    | lent block off =>
      obtain ⟨hobj, hoff⟩ := h
      simp only [Env.inOut, hform, htarget, hobj, hoff]

theorem Slot.inOut_of_spares {a : InArg} {spelled : Bool} (htarget : s.target = .fresh x spelled)
    (hin : s.inArg = some a) (h : s.Spares x) : env.inOut s a = .nowhere := by
  simp only [Slot.Spares, hin] at h
  cases hform : s.form with
  | scalar =>
    cases a with
    | placeholder => simp [Slot.allocated, htarget, hform] at h
    | _ => simp only [Env.inOut, hform, htarget]
  | sized n | unbounded n =>
    cases a with
    | placeholder => simp only [Env.inOut, hform, htarget, h, if_true]
    | copied y =>
      have hnot : ¬(y = x ∧ ¬s.allocated) := fun hy => hy.2 (h (by rw [hform]; rfl) hy.1)
      simp only [Env.inOut, hform, htarget, if_neg hnot]
    | named y =>
      have hy : y = x ∧ s.allocated := h (by rw [hform]; rfl)
      simp only [Env.inOut, hform, htarget, if_pos hy]
    | lent block off => exact absurd (by rw [hform]; rfl) h

end

section

variable {c : Call} {i : Fin c.count} {x : String}

theorem Call.Met.dest (h : c.Met) (hx : (c.slot i).target = .existing x) :
    c.dest i = .elements (c.env.place x).obj (c.env.place x).off := by
  have hreached := h.reached i x hx
  unfold Call.dest
  cases hin : (c.slot i).inArg with
  | none =>
    rw [hx]
    rw [Slot.Reached, hin] at hreached
    exact Env.outOnly_of_reaches hreached (h.width i x hx)
  | some a =>
    rw [Slot.Reached, hin] at hreached
    have hvar : (c.env.var x).isArray := (h.taken i x hx).1.trans hreached.1
    exact Env.inOut_of_passes hx hreached.1 hvar hreached.2

theorem Call.Met.dest_fresh {spelled : Bool} (h : c.Met)
    (hx : (c.slot i).target = .fresh x spelled) : c.dest i = .nowhere := by
  unfold Call.dest
  cases hin : (c.slot i).inArg with
  | none => rw [hx]
  | some a => exact Slot.inOut_of_spares hx hin (h.spares i x spelled hx)


/-- The cell the source gives an element. -/
def Call.target (c : Call) (key : c.Key) : Option (Cell Obj) :=
  match (c.slot key.1).target with
  | .existing x => some ((c.env.place x).cell key.2)
  | .fresh .. => none

theorem Call.target_eq {key : c.Key} {d : Cell Obj} (h : c.target key = some d) :
    ∃ x, (c.slot key.1).target = .existing x ∧ (c.env.place x).cell key.2 = d := by
  unfold Call.target at h
  split at h
  · next x hx => exact ⟨x, hx, Option.some.inj h⟩
  · exact nomatch h

theorem Call.Met.cell_eq (h : c.Met) (key : c.Key) : c.cell key = c.target key := by
  unfold Call.cell Call.target
  cases hx : (c.slot key.1).target with
  | existing x =>
    rw [h.dest hx]
    simp only [Place.cell, h.width key.1 x hx]
  | fresh x spelled => rw [h.dest_fresh hx]

theorem Env.place_fits {env : Env} {k : Nat} (hk : k < (env.place x).len)
    (hroom : ∀ ty alloc, env.var x = .scalar ty alloc → ty.width ≤ alloc) :
    ((env.place x).cell k).off + ((env.place x).cell k).width ≤
      env.size ((env.place x).cell k).obj := by
  have hfits := env.fits x
  have hlast : ∀ n w : Nat, k < n → k * w + w ≤ n * w := fun n w hn => by
    rw [← Nat.succ_mul]
    exact Nat.mul_le_mul_right w hn
  have hrow : ∀ row rows w : Nat, row < rows → row * w + w ≤ rows * w := fun row rows w hn => by
    rw [← Nat.succ_mul]
    exact Nat.mul_le_mul_right w hn
  unfold Env.place at hk ⊢
  cases hv : env.var x with
  | scalar ty alloc =>
    rw [hv] at hk
    have hle := hroom ty alloc hv
    simp only [Nat.lt_one_iff] at hk
    simpa [Place.cell, Env.size, hv, Var.size, hk] using hle
  | param ty | global ty =>
    rw [hv] at hk
    simp only [Nat.lt_one_iff] at hk
    simp [Place.cell, Env.size, hv, Var.size, hk]
  | column ty row rows =>
    rw [hv] at hk hfits
    simp only [Nat.lt_one_iff] at hk
    simpa [Place.cell, Env.size, hv, Var.size, hk] using hrow row rows ty.width hfits
  | array ty len block off =>
    rw [hv] at hk hfits
    have hl := hlast len ty.width hk
    simp only [Var.Fits] at hfits
    simp only [Place.cell, Env.size]
    omega
  | arrayColumn ty len row rows =>
    rw [hv] at hk hfits
    have hl := hlast len ty.width hk
    have hr := hrow row rows (len * ty.width) hfits.2
    simp only [Place.cell, Env.size, hv, Var.size]
    omega
  | staticArray ty len =>
    rw [hv] at hk
    have hl := hlast len ty.width hk
    simp only [Place.cell, Env.size, hv, Var.size]
    omega

theorem Call.Admits.valid {l : List (c.Key × Int)} (h : c.Admits l) : ∀ e ∈ l, c.Valid e.1 := by
  obtain ⟨direct, r, hdirect, rfl⟩ := h
  intro e he
  rcases List.mem_append.mp he with he | he
  · exact (hdirect e he).2
  · have hmem := Memory.mem_of_giving he
    obtain ⟨i, -, hk⟩ := List.mem_flatMap.mp hmem
    obtain ⟨k, hk, heq⟩ := List.mem_map.mp hk
    rw [← heq]
    exact List.mem_range.mp hk

/-- One store. -/
theorem Call.Met.store (h : c.Met) {e : c.Key × Int} (he : c.Valid e.1) (view : Fin c.count → Int)
    (m : Memory Obj) : c.store view m e = some (m.put (c.target e.1) e.2) := by
  unfold Call.store Call.target
  cases hx : (c.slot e.1.1).target with
  | fresh x spelled => rw [h.dest_fresh hx]; rfl
  | existing x =>
    rw [h.dest hx, ← h.width e.1.1 x hx]
    have hk : e.1.2 < (c.env.place x).len := Nat.lt_of_lt_of_le he (h.taken e.1.1 x hx).2
    exact if_pos (Env.place_fits hk fun ty alloc => h.room e.1.1 x ty alloc hx)

/-- All stores of a run. -/
theorem Call.Met.run (h : c.Met) {l : List (c.Key × Int)} (hl : ∀ e ∈ l, c.Valid e.1)
    (view : Fin c.count → Int) (m : Memory Obj) :
    c.run view m l = some (m.storeAll c.target l) := by
  have haccepted : ¬∃ i, c.dest i = .refused := by
    rintro ⟨i, hi⟩
    cases hx : (c.slot i).target with
    | existing x =>
      rw [h.dest hx] at hi
      cases hi
    | fresh x spelled =>
      rw [h.dest_fresh hx] at hi
      cases hi
  rw [Call.run, if_neg haccepted]
  clear haccepted
  induction l generalizing m with
  | nil => rfl
  | cons e l ih =>
    rw [List.foldlM_cons, h.store (hl e List.mem_cons_self) view m]
    exact ih (fun e he => hl e (List.mem_cons_of_mem _ he)) _

theorem Place.cell_disjoint {p : Place} {k l : Nat} (h : k ≠ l) :
    (p.cell k).Disjoint (p.cell l) := by
  rintro o b ⟨-, hlo, hhi⟩ ⟨-, hlo', hhi'⟩
  simp only [Place.cell] at hlo hhi hlo' hhi'
  rcases Nat.lt_or_gt_of_ne h with hlt | hlt
  · have := Nat.mul_le_mul_right p.ty.width (Nat.succ_le_of_lt hlt)
    rw [Nat.succ_mul] at this
    omega
  · have := Nat.mul_le_mul_right p.ty.width (Nat.succ_le_of_lt hlt)
    rw [Nat.succ_mul] at this
    omega

theorem Call.Met.disjoint (h : c.Met) {key key' : c.Key} (hkey : c.Valid key)
    (hkey' : c.Valid key') (hne : key' ≠ key) {d d' : Cell Obj} (hd : c.target key = some d)
    (hd' : c.target key' = some d') : d.Disjoint d' := by
  obtain ⟨x, hx, rfl⟩ := Call.target_eq hd
  obtain ⟨y, hy, rfl⟩ := Call.target_eq hd'
  by_cases hi : key.1 = key'.1
  · rw [← hi, hx] at hy
    obtain rfl := Target.existing.inj hy
    exact Place.cell_disjoint fun hk => hne (Prod.ext hi.symm hk.symm)
  · exact h.apart key.1 key'.1 x y key.2 key'.2 hi hx hy hkey hkey'

theorem Call.Met.written (h : c.Met) {l : List (c.Key × Int)} (hl : ∀ e ∈ l, c.Valid e.1)
    (m : Memory Obj) : c.Written l m (m.storeAll c.target l) where
  holds i x hx k v hlast := by
    have hkey : c.Valid (i, k) := by
      by_contra hnot
      have hnone : lastOf (i, k) l = none :=
        (lastOf_eq_none_iff _ _).mpr fun e he heq => hnot (heq ▸ hl e he)
      rw [hnone] at hlast
      cases hlast
    have hcell : c.target (i, k) = some ((c.env.place x).cell k) := by
      simp only [Call.target, hx]
    have hholds := Memory.holds_storeAll (m := m)
      (fun e he d hne hd => h.disjoint hkey (hl e he) hne hcell hd) hcell hlast
    intro o b hb
    have hlt : b - ((c.env.place x).cell k).off < (c.slot i).ty.width := by
      rw [← h.width i x hx]
      exact Nat.sub_lt_left_of_lt_add hb.2.1 hb.2.2
    exact (hholds o b hb).trans (Cell.bit_congr ((c.slot i).ty.wrap_modEq v).symm hlt)
  other o b hother := by
    refine Memory.storeAll_other fun e he d hd => ?_
    obtain ⟨x, hx, rfl⟩ := Call.target_eq hd
    exact hother e he x hx

theorem Call.Met.writes (h : c.Met) : c.Writes where
  taken := h.taken
  written view _ hl m := ⟨_, h.run hl.valid view m, h.written hl.valid m⟩

end

/-! ## Calls that write their targets -/

section

variable {c : Call} {key : c.Key}

theorem Call.mem_returned : key ∈ c.returned ↔ ¬c.Direct key.1 ∧ c.Valid key := by
  obtain ⟨i, k⟩ := key
  simp [Call.returned, Call.Valid]

/-- The element, if its callee stores it, and then what is returned. -/
def Call.probe (c : Call) (key : c.Key) : List c.Key :=
  (if c.Direct key.1 then [key] else []) ++ c.returned

theorem Call.mem_probe (h : c.Valid key) : key ∈ c.probe key := by
  unfold Call.probe
  by_cases hd : c.Direct key.1
  · simp [hd]
  · simp [Call.mem_returned, hd, h]

theorem Call.admits_giving {keys : List c.Key}
    (h : ∀ key ∈ keys, c.Direct key.1 ∧ c.Valid key) (r : c.Key → Int) :
    c.Admits (Memory.giving r (keys ++ c.returned)) := by
  refine ⟨Memory.giving r keys, r, ?_, List.map_append⟩
  intro e he
  exact h e.1 (Memory.mem_of_giving he)

theorem Call.admits_probe (h : c.Valid key) (r : c.Key → Int) :
    c.Admits (Memory.giving r (c.probe key)) := by
  refine Call.admits_giving ?_ r
  intro key' hkey'
  split at hkey'
  · next hd =>
    obtain rfl := List.mem_singleton.mp hkey'
    exact ⟨hd, h⟩
  · exact nomatch hkey'

variable {i : Fin c.count} {x : String} {view : Fin c.count → Int} {m m' : Memory Obj}

theorem Env.lend_cases (env : Env) (y : String) :
    env.lend y = .refused ∨ ∃ obj off, env.lend y = .elements obj off ∧
      ((∃ b, obj = .block b) ∨ (env.var y).isArray ∧ obj = .named y) := by
  cases hv : env.var y with
  | scalar ty alloc | param ty | global ty | column ty row rows =>
    left
    simp [Env.lend, hv, Var.isArray]
  | array ty len block off =>
    refine .inr ⟨.block block, off, ?_, .inl ⟨block, rfl⟩⟩
    simp [Env.lend, Env.place, hv, Var.isArray]
  | arrayColumn ty len row rows =>
    refine .inr ⟨.named y, row * (len * ty.width), ?_, .inr ⟨rfl, rfl⟩⟩
    simp [Env.lend, Env.place, hv, Var.isArray]
  | staticArray ty len =>
    refine .inr ⟨.named y, 0, ?_, .inr ⟨rfl, rfl⟩⟩
    simp [Env.lend, Env.place, hv, Var.isArray]

theorem Env.inOut_cases (env : Env) (s : Slot) (a : InArg) :
    env.inOut s a = .refused ∨ env.inOut s a = .nowhere ∨ (∃ y, env.inOut s a = env.lend y) ∨
      ∃ block off, env.inOut s a = .elements (.block block) off := by
  unfold Env.inOut
  split
  · exact .inl rfl
  · exact .inr (.inl rfl)
  · exact .inr (.inr (.inl ⟨_, rfl⟩))
  · split
    · exact .inr (.inr (.inl ⟨_, rfl⟩))
    · exact .inr (.inl rfl)
  · exact .inr (.inr (.inl ⟨_, rfl⟩))
  · split
    · exact .inr (.inl rfl)
    · exact .inl rfl
  · split
    · exact .inr (.inr (.inl ⟨_, rfl⟩))
    · exact .inr (.inl rfl)
  · split
    · exact .inr (.inl rfl)
    · exact .inr (.inr (.inl ⟨_, rfl⟩))
  · exact .inr (.inr (.inr ⟨_, _, rfl⟩))

/-- Where an array is that is lent. -/
theorem Env.inOut_dest (env : Env) (s : Slot) (a : InArg) :
    env.inOut s a = .refused ∨ env.inOut s a = .nowhere ∨
      ∃ obj off, env.inOut s a = .elements obj off ∧
        ((∃ b, obj = .block b) ∨ ∃ y, (env.var y).isArray ∧ obj = .named y) := by
  rcases env.inOut_cases s a with h | h | ⟨y, h⟩ | ⟨block, off, h⟩
  · exact .inl h
  · exact .inr (.inl h)
  · rcases env.lend_cases y with hy | ⟨obj, off, hy, hobj⟩
    · exact .inl (h.trans hy)
    · exact .inr (.inr ⟨obj, off, h.trans hy, hobj.imp_right fun hy => ⟨y, hy⟩⟩)
  · exact .inr (.inr ⟨_, off, h, .inl ⟨block, rfl⟩⟩)

/-- Where a result goes that is stored after the call. -/
theorem Env.outOnly_named {env : Env} {path : Path} {s : Slot} {x : String} {obj : Obj} {off : Nat}
    (hproc : path ≠ .proc) (hbuiltin : path ≠ .builtin)
    (hkind : (env.var x).isArray = s.form.isArray)
    (h : env.outOnly path s x = .elements obj off) : s.form = .scalar ∧ obj = .named x := by
  cases hform : s.form with
  | scalar =>
    refine ⟨rfl, ?_⟩
    rw [hform] at hkind
    cases path with
    | proc => exact absurd rfl hproc
    | builtin => exact absurd rfl hbuiltin
    | ext | func | zip | bufferFold =>
      cases hv : env.var x with
      | scalar ty alloc | param ty | global ty | column ty row rows =>
        simp_all [Env.outOnly, Env.findValue]
      | array ty len block off | arrayColumn ty len row rows | staticArray ty len =>
        rw [hv] at hkind
        cases hkind
  | sized n | unbounded n =>
    cases path with
    | proc => exact absurd rfl hproc
    | builtin => exact absurd rfl hbuiltin
    | ext | func | zip | bufferFold =>
      cases hv : env.findValue x with
      | none => simp [Env.outOnly, hform, hv] at h
      | some e => cases e <;> simp [Env.outOnly, hform, hv] at h

theorem width_pos (t : IntTy) : 0 < t.width := by
  have := t.known
  grind

/-- A store that does not end in the elements of the target does not depend on what is stored. -/
theorem Call.store_congr (h : ¬∃ obj off, c.dest key.1 = .elements obj off) (v v' : Int) :
    c.store view m (key, v) = c.store view m (key, v') := by
  unfold Call.store
  cases hd : c.dest key.1 with
  | elements obj off => exact absurd ⟨obj, off, hd⟩ h
  | _ => rfl

theorem Call.run_congr {r r' : c.Key → Int} {keys : List c.Key}
    (h : ∀ key ∈ keys, r key = r' key ∨ ¬∃ obj off, c.dest key.1 = .elements obj off) :
    c.run view m (Memory.giving r keys) = c.run view m (Memory.giving r' keys) := by
  unfold Call.run
  split
  · rfl
  · clear * - h
    induction keys generalizing m with
    | nil => rfl
    | cons key keys ih =>
      have hstore : c.store view m (key, r key) = c.store view m (key, r' key) := by
        rcases h key List.mem_cons_self with heq | hd
        · rw [heq]
        · exact Call.store_congr hd _ _
      change (c.store view m (key, r key)).bind _ = (c.store view m (key, r' key)).bind _
      rw [hstore]
      congr 1
      funext m'
      exact ih fun key' hkey' => h key' (List.mem_cons_of_mem _ hkey')

theorem Call.Writes.not_refused (h : c.Writes) : c.dest i ≠ .refused := by
  intro hi
  have hadmits : c.Admits (Memory.giving (fun _ => 0) ([] ++ c.returned)) :=
    Call.admits_giving (by simp) _
  obtain ⟨m', hrun, -⟩ := h.written (fun _ => 0) _ hadmits fun _ _ => false
  rw [Call.run, if_pos ⟨i, hi⟩] at hrun
  cases hrun

theorem bit_wrap_filled {t : IntTy} {d : Cell Obj} {o : Obj} {b : Nat} {bit : Bool}
    (hd : d.Has o b) (hb : b - d.off < t.width) : d.bit (t.wrap (Cell.filled bit)) b = bit :=
  (Cell.bit_congr (t.wrap_modEq _) hb).trans (Cell.bit_filled hd)

/-- The numbers of a probing run: one for the element, another for the rest. -/
def Call.mark (c : Call) (key : c.Key) (bit : Bool) : c.Key → Int :=
  fun key' => if key' = key then Cell.filled bit else Cell.filled (!bit)

/-- Every existing target has an address its result is stored at. -/
theorem Call.Writes.elements (h : c.Writes) (hx : (c.slot i).target = .existing x) :
    ∃ obj off, c.dest i = .elements obj off := by
  by_contra hnot
  have hvalid : c.Valid (i, 0) := (c.slot i).pos
  let p := (c.env.place x).cell 0
  have hfirst : p.Has p.obj p.off := Cell.has_first (width_pos (c.env.place x).ty)
  have hlow : p.off - p.off < (c.slot i).ty.width := by
    rw [Nat.sub_self]
    exact width_pos (c.slot i).ty
  have hbit (r : c.Key → Int) (bit : Bool) (hr : r (i, 0) = Cell.filled bit) (m' : Memory Obj)
      (hw : c.Written (Memory.giving r (c.probe (i, 0))) (fun _ _ => false) m') :
      m' p.obj p.off = bit := by
    have hlast := Memory.lastOf_giving (r := r) (Call.mem_probe hvalid)
    rw [hr] at hlast
    rw [hw.holds i x hx 0 _ hlast p.obj p.off hfirst]
    exact bit_wrap_filled hfirst hlow
  let r : c.Key → Int := fun _ => Cell.filled false
  have hsame : c.run (fun _ => 0) (fun _ _ => false) (Memory.giving r (c.probe (i, 0))) =
      c.run (fun _ => 0) (fun _ _ => false)
        (Memory.giving (c.mark (i, 0) true) (c.probe (i, 0))) := by
    refine Call.run_congr fun key _ => ?_
    by_cases hkey : key = (i, 0)
    · rw [hkey]
      exact .inr hnot
    · exact .inl (if_neg hkey).symm
  obtain ⟨m₁, hrun₁, hw₁⟩ := h.written _ _ (Call.admits_probe hvalid r) _
  obtain ⟨m₂, hrun₂, hw₂⟩ := h.written _ _ (Call.admits_probe hvalid (c.mark (i, 0) true)) _
  rw [hsame, hrun₂] at hrun₁
  obtain rfl : m₂ = m₁ := Option.some.inj hrun₁
  have hfalse := hbit r false rfl m₂ hw₁
  have htrue := hbit (c.mark (i, 0) true) true (if_pos rfl) m₂ hw₂
  rw [htrue] at hfalse
  cases hfalse


theorem Call.Writes.dest_cases (h : c.Writes) (i : Fin c.count) :
    c.dest i = .nowhere ∨ ∃ obj off, c.dest i = .elements obj off := by
  cases hx : (c.slot i).target with
  | existing x => exact .inr (h.elements hx)
  | fresh x spelled =>
    have haccepted := h.not_refused (i := i)
    unfold Call.dest at haccepted ⊢
    rw [hx] at haccepted ⊢
    cases hin : (c.slot i).inArg with
    | none => exact .inl rfl
    | some a =>
      rw [hin] at haccepted
      rcases c.env.inOut_dest (c.slot i) a with hd | hd | ⟨obj, off, hd, -⟩
      · exact absurd hd haccepted
      · exact .inl hd
      · exact .inr ⟨obj, off, hd⟩

theorem Call.Writes.store_eq (h : c.Writes) {e : c.Key × Int}
    (hstore : c.store view m e = some m') :
    m' = m.put (c.cell e.1) e.2 ∧
      ∀ d, c.cell e.1 = some d → d.off + d.width ≤ c.env.size d.obj := by
  unfold Call.store at hstore
  unfold Call.cell
  rcases h.dest_cases e.1.1 with hd | ⟨obj, off, hd⟩
  · rw [hd] at hstore ⊢
    exact ⟨(Option.some.inj hstore).symm, nofun⟩
  · rw [hd] at hstore ⊢
    simp only [Env.store] at hstore
    split at hstore
    · next hfits =>
      refine ⟨(Option.some.inj hstore).symm, fun d hcell => ?_⟩
      cases hcell
      exact hfits
    · exact nomatch hstore

theorem Call.Writes.run_eq (h : c.Writes) {l : List (c.Key × Int)}
    (hrun : c.run view m l = some m') :
    m' = m.storeAll c.cell l ∧
      ∀ e ∈ l, ∀ d, c.cell e.1 = some d → d.off + d.width ≤ c.env.size d.obj := by
  unfold Call.run at hrun
  split at hrun
  · exact nomatch hrun
  · induction l generalizing m with
    | nil => exact ⟨(Option.some.inj hrun).symm, by simp⟩
    | cons e l ih =>
      rw [List.foldlM_cons] at hrun
      obtain ⟨m₁, hstore, hrest⟩ := Option.bind_eq_some_iff.mp hrun
      obtain ⟨rfl, hfits⟩ := h.store_eq hstore
      obtain ⟨hm', hfits'⟩ := ih hrest
      exact ⟨hm', List.forall_mem_cons.mpr ⟨hfits, hfits'⟩⟩

/-- What a run leaves. -/
theorem Call.Writes.after (h : c.Writes) {l : List (c.Key × Int)} (hl : c.Admits l)
    (m : Memory Obj) : c.Written l m (m.storeAll c.cell l) := by
  obtain ⟨m', hrun, hw⟩ := h.written (fun _ => 0) l hl m
  obtain ⟨rfl, -⟩ := h.run_eq hrun
  exact hw

theorem Call.Writes.cell_fits (h : c.Writes) (hkey : c.Valid key) {d : Cell Obj}
    (hd : c.cell key = some d) : d.off + d.width ≤ c.env.size d.obj := by
  have hl := Call.admits_probe hkey fun _ => 0
  obtain ⟨m', hrun, -⟩ := h.written (fun _ => 0) _ hl fun _ _ => false
  have hmem : (key, (0 : Int)) ∈ Memory.giving (fun _ => 0) (c.probe key) :=
    List.mem_map.mpr ⟨key, Call.mem_probe hkey, rfl⟩
  exact (h.run_eq hrun).2 _ hmem d hd

theorem Call.target_width {p : Cell Obj} (hp : c.target key = some p) : 0 < p.width := by
  obtain ⟨x, -, rfl⟩ := Call.target_eq hp
  exact width_pos _

/-- Zeros in a memory of ones: the bits of a place are among those its result is stored to. -/
theorem Call.Writes.cell_of_target (h : c.Writes) (hkey : c.Valid key) {p : Cell Obj}
    (hp : c.target key = some p) :
    ∃ d, c.cell key = some d ∧ ∀ o b, p.Has o b → d.Has o b := by
  obtain ⟨x, hx, rfl⟩ := Call.target_eq hp
  have hw := h.after (Call.admits_probe hkey (c.mark key false)) fun _ _ => true
  have hlast := Memory.lastOf_giving (r := c.mark key false) (Call.mem_probe hkey)
  have hrest (key' : c.Key) (_ : key' ∈ c.probe key) (hne : key' ≠ key) :
      c.mark key false key' = Cell.filled true := if_neg hne
  have hbit (o : Obj) (b : Nat) (hb : ((c.env.place x).cell key.2).Has o b) :
      ∃ d, c.cell key = some d ∧ d.Has o b := by
    refine Memory.storeAll_differs (m := fun _ _ => true) hrest rfl ?_
    rw [hw.holds key.1 x hx key.2 _ hlast o b hb, Call.mark, if_pos rfl]
    have hzero : (c.slot key.1).ty.wrap (Cell.filled false) = Cell.filled false := by
      simp [Word.wrap, Cell.filled]
    rw [hzero, Cell.bit_filled hb]
    simp
  obtain ⟨d, hd, -⟩ := hbit _ _ (Cell.has_first (Call.target_width hp))
  refine ⟨d, hd, fun o b hb => ?_⟩
  obtain ⟨d', hd', hb'⟩ := hbit o b hb
  obtain rfl := Option.some.inj (hd.symm.trans hd')
  exact hb'

theorem Call.cell_width {d : Cell Obj} (hd : c.cell key = some d) :
    d.width = (c.slot key.1).ty.width := by
  unfold Call.cell at hd
  split at hd
  · cases hd
    rfl
  · exact nomatch hd

/-- A place that was marked with ones holds ones. -/
theorem Call.Writes.bit_target (h : c.Writes) (hkey : c.Valid key) {p : Cell Obj}
    (hp : c.target key = some p) {o : Obj} {b : Nat} (hb : p.Has o b) (bit : Bool) :
    p.bit ((c.slot key.1).ty.wrap (Cell.filled bit)) b = bit := by
  obtain ⟨d, hd, hpd⟩ := h.cell_of_target hkey hp
  have hle := Cell.width_le_of_has hpd
  rw [Call.cell_width hd] at hle
  have hlt := Nat.sub_lt_left_of_lt_add hb.2.1 hb.2.2
  exact bit_wrap_filled hb (Nat.lt_of_lt_of_le hlt hle)

/-- What a run in which each element has its own number leaves in a place. -/
theorem Call.Writes.place_bit (h : c.Writes) {keys : List c.Key} {r : c.Key → Int}
    (hl : c.Admits (Memory.giving r keys)) (hkey : key ∈ keys) (hvalid : c.Valid key) {bit : Bool}
    (hr : r key = Cell.filled bit) {p : Cell Obj} (hp : c.target key = some p) {o : Obj} {b : Nat}
    (hb : p.Has o b) (m : Memory Obj) :
    m.storeAll c.cell (Memory.giving r keys) o b = bit := by
  have hbit := h.bit_target hvalid hp hb bit
  obtain ⟨x, hx, rfl⟩ := Call.target_eq hp
  have hlast := Memory.lastOf_giving (r := r) hkey
  rw [(h.after hl m).holds key.1 x hx key.2 _ hlast o b hb, hr]
  exact hbit

theorem Call.cell_eq_some {d : Cell Obj} (hd : c.cell key = some d) :
    ∃ off, c.dest key.1 = .elements d.obj off ∧
      d.off = off + key.2 * (c.slot key.1).ty.width := by
  unfold Call.cell at hd
  split at hd
  · next obj off hdest =>
    cases hd
    exact ⟨off, hdest, rfl⟩
  · exact nomatch hd

/-- Where a scalar goes that is stored after the call. -/
theorem Call.Writes.returned_obj (h : c.Writes) (hdirect : ¬c.Direct key.1) {d : Cell Obj}
    (hd : c.cell key = some d) :
    ∃ x, (c.slot key.1).target = .existing x ∧ (c.slot key.1).form = .scalar ∧
      d.obj = .named x := by
  have hproc : c.path ≠ .proc := fun hp => hdirect (.inl hp)
  have hbuiltin : c.path ≠ .builtin := fun hp => hdirect (.inr (.inl hp))
  have hin : (c.slot key.1).inArg = none := by
    by_contra hin
    exact hdirect (.inr (.inr hin))
  obtain ⟨off, hdest, -⟩ := Call.cell_eq_some hd
  unfold Call.dest at hdest
  rw [hin] at hdest
  cases hx : (c.slot key.1).target with
  | fresh x spelled =>
    rw [hx] at hdest
    cases hdest
  | existing x =>
    rw [hx] at hdest
    exact ⟨x, rfl, Env.outOnly_named hproc hbuiltin (h.taken key.1 x hx).1 hdest⟩

/-- Where an array is that is lent. -/
theorem Call.lent_obj (hin : (c.slot key.1).inArg ≠ none) {d : Cell Obj}
    (hd : c.cell key = some d) :
    (∃ b, d.obj = .block b) ∨ ∃ y, (c.env.var y).isArray ∧ d.obj = .named y := by
  obtain ⟨off, hdest, -⟩ := Call.cell_eq_some hd
  obtain ⟨a, ha⟩ := Option.ne_none_iff_exists'.mp hin
  unfold Call.dest at hdest
  rw [ha] at hdest
  rcases c.env.inOut_dest (c.slot key.1) a with hd' | hd' | ⟨obj, off', hd', hobj⟩
  · exact nomatch hd'.symm.trans hdest
  · exact nomatch hd'.symm.trans hdest
  · obtain ⟨rfl, -⟩ := Dest.elements.inj (hd'.symm.trans hdest)
    exact hobj

theorem Call.mark_of_ne {key' : c.Key} (h : key' ≠ key) (bit : Bool) :
    c.mark key bit key' = Cell.filled (!bit) := if_neg h

/-- No other element that is stored after the call goes where this one goes. -/
theorem Call.Writes.returned_apart (h : c.Writes) {key' : c.Key} (hkey : c.Valid key)
    (hkey' : key' ∈ c.returned) (hne : key' ≠ key) {d d' : Cell Obj} (hd : c.cell key = some d)
    (hd' : c.cell key' = some d') : d.obj ≠ d'.obj := by
  intro hobj
  obtain ⟨hdirect', hvalid'⟩ := Call.mem_returned.mp hkey'
  obtain ⟨x', hx', hform', hobj'⟩ := h.returned_obj hdirect' hd'
  by_cases hdirect : c.Direct key.1
  · have hin : (c.slot key.1).inArg ≠ none := by
      rcases hdirect with hp | hp | hin
      · exact absurd (.inl hp) hdirect'
      · exact absurd (.inr (.inl hp)) hdirect'
      · exact hin
    rcases Call.lent_obj hin hd with ⟨b, hb⟩ | ⟨y, hy, hb⟩
    · exact nomatch hb.symm.trans (hobj.trans hobj')
    · obtain rfl := Obj.named.inj (hb.symm.trans (hobj.trans hobj'))
      have hkind := (h.taken key'.1 y hx').1
      rw [hform', hy] at hkind
      cases hkind
  · obtain ⟨x, hx, hform, hobjx⟩ := h.returned_obj hdirect hd
    obtain rfl := Obj.named.inj (hobjx.symm.trans (hobj.trans hobj'))
    have hzero : key.2 = key'.2 := by
      unfold Call.Valid at hkey hvalid'
      rw [hform] at hkey
      rw [hform'] at hvalid'
      exact (Nat.lt_one_iff.mp hkey).trans (Nat.lt_one_iff.mp hvalid').symm
    -- both have the same place, which cannot hold both numbers
    let p := (c.env.place x).cell key.2
    have hp : c.target key = some p := by simp only [Call.target, hx, p]
    have hp' : c.target key' = some p := by simp only [Call.target, hx', hzero, p]
    have hfirst := Cell.has_first (Call.target_width hp)
    have hl : c.Admits (Memory.giving (c.mark key true) c.returned) :=
      @Call.admits_giving c [] (by simp) _
    have htrue := h.place_bit hl (Call.mem_returned.mpr ⟨hdirect, hkey⟩) hkey (if_pos rfl) hp
      hfirst fun _ _ => false
    have hfalse := h.place_bit hl hkey' hvalid' (Call.mark_of_ne hne true) hp' hfirst
      fun _ _ => false
    rw [htrue] at hfalse
    cases hfalse

/-- Ones in a memory of zeros: the bits a result is stored to are among those of its place. -/
theorem Call.Writes.target_of_cell (h : c.Writes) (hkey : c.Valid key) {d : Cell Obj}
    (hd : c.cell key = some d) {o : Obj} {b : Nat} (hb : d.Has o b) :
    ∃ p, c.target key = some p ∧ p.Has o b := by
  by_contra hnot
  have hl := Call.admits_probe hkey (c.mark key true)
  have htrue : Memory.storeAll c.cell (fun _ _ => false)
      (Memory.giving (c.mark key true) (c.probe key)) o b = true := by
    rw [Memory.storeAll_bit (Call.mem_probe hkey) hd hb, Call.mark, if_pos rfl,
      Cell.bit_filled hb]
    intro key' hkey' hne d' hd' hb'
    have hreturned : key' ∈ c.returned := by
      refine (List.mem_append.mp hkey').resolve_left fun hmem => ?_
      split at hmem
      · exact hne (List.mem_singleton.mp hmem)
      · exact nomatch hmem
    exact h.returned_apart hkey hreturned hne hd hd' (hb.1.trans hb'.1.symm)
  have hfalse : Memory.storeAll c.cell (fun _ _ => false)
      (Memory.giving (c.mark key true) (c.probe key)) o b = false := by
    by_cases hother : ∃ key' ∈ c.probe key, ∃ p, c.target key' = some p ∧ p.Has o b
    · obtain ⟨key', hkey', p, hp, hbp⟩ := hother
      have hne : key' ≠ key := fun heq => hnot ⟨p, heq ▸ hp, hbp⟩
      have hvalid' : c.Valid key' :=
        hl.valid (key', c.mark key true key') (List.mem_map.mpr ⟨key', hkey', rfl⟩)
      exact h.place_bit hl hkey' hvalid' (Call.mark_of_ne hne true) hp hbp _
    · refine (h.after hl _).other o b fun e he x hx hbp => hother ?_
      exact ⟨e.1, Memory.mem_of_giving he, _, by simp only [Call.target, hx], hbp⟩
  rw [htrue] at hfalse
  cases hfalse

/-- The code has the cells of the source. -/
theorem Call.Writes.cell_eq (h : c.Writes) (hkey : c.Valid key) : c.cell key = c.target key := by
  cases hp : c.target key with
  | none =>
    cases hd : c.cell key with
    | none => rfl
    | some d =>
      have hpos : 0 < d.width := by
        rw [Call.cell_width hd]
        exact width_pos _
      obtain ⟨p, hp', -⟩ := h.target_of_cell hkey hd (Cell.has_first hpos)
      exact nomatch hp.symm.trans hp'
  | some p =>
    obtain ⟨d, hd, hpd⟩ := h.cell_of_target hkey hp
    have hdp (o : Obj) (b : Nat) (hb : d.Has o b) : p.Has o b := by
      obtain ⟨p', hp', hb'⟩ := h.target_of_cell hkey hd hb
      obtain rfl := Option.some.inj (hp.symm.trans hp')
      exact hb'
    rw [hd, Cell.eq_of_has (Call.target_width hp) hpd hdp]

end
section

variable {env : Env} {path : Path} {s : Slot} {x : String}

theorem Env.reaches_of_outOnly {obj : Obj} (hkind : (env.var x).isArray = s.form.isArray)
    (h : env.outOnly path s x = .elements obj (env.place x).off) :
    path.Reaches s.form (env.var x) := by
  have hrow {row w : Nat} (hw : 0 < w) (hoff : 0 = row * w) : row = 0 :=
    (Nat.mul_eq_zero.mp hoff.symm).resolve_right hw.ne'
  cases hform : s.form with
  | scalar =>
    rw [hform] at hkind
    cases hv : env.var x with
    | scalar ty alloc =>
      cases path <;> simp [Env.outOnly, hform, Env.findValue, hv, Path.Reaches] at h ⊢
    | param ty | global ty =>
      cases path <;> simp [Env.outOnly, hform, Env.findValue, hv] at h
    | column ty row rows =>
      have hoff : (env.place x).off = row * ty.width := by simp only [Env.place, hv]
      cases path with
      | ext => trivial
      | proc | func =>
        simp only [Env.outOnly, hform, Env.findValue, hv, Form.through] at h
        exact hrow (width_pos ty) ((Dest.elements.inj h).2.trans hoff)
      | zip | bufferFold | builtin => simp [Env.outOnly, hform, Env.findValue, hv] at h
    | array ty len block off | arrayColumn ty len row rows | staticArray ty len =>
      rw [hv] at hkind
      cases hkind
  | sized n =>
    rw [hform] at hkind
    cases hv : env.var x with
    | scalar ty alloc | param ty | global ty | column ty row rows =>
      rw [hv] at hkind
      cases hkind
    | array ty len block off =>
      cases path with
      | proc => trivial
      | _ => simp [Env.outOnly, hform, Env.findValue, hv] at h
    | arrayColumn ty len row rows =>
      have hoff : (env.place x).off = row * (len * ty.width) := by simp only [Env.place, hv]
      have hfits := env.fits x
      rw [hv] at hfits
      have hpos : 0 < len * ty.width := Nat.mul_pos (Nat.lt_of_succ_lt hfits.1) (width_pos ty)
      cases path with
      | proc =>
        simp only [Env.outOnly, hform, Env.findValue, hv, Form.through] at h
        exact hrow hpos ((Dest.elements.inj h).2.trans hoff)
      | _ => simp [Env.outOnly, hform, Env.findValue, hv] at h
    | staticArray ty len => cases path <;> simp [Env.outOnly, hform, Env.findValue, hv] at h
  | unbounded n =>
    rw [hform] at hkind
    cases hv : env.var x with
    | scalar ty alloc | param ty | global ty | column ty row rows =>
      rw [hv] at hkind
      cases hkind
    | array ty len block off | arrayColumn ty len row rows | staticArray ty len =>
      cases path <;> simp [Env.outOnly, hform, Env.findValue, hv, Form.through] at h

theorem Env.passes_of_inOut {a : InArg} (htarget : s.target = .existing x)
    (h : env.inOut s a = .elements (env.place x).obj (env.place x).off) :
    s.form.isArray ∧ env.Passes x a := by
  cases hform : s.form with
  | scalar => simp [Env.inOut, hform, htarget] at h
  | sized n | unbounded n =>
    refine ⟨rfl, ?_⟩
    cases a with
    | placeholder => trivial
    | copied y =>
      simp only [Env.inOut, hform, htarget] at h
      split at h
      · next hy => exact hy
      · exact nomatch h
    | named y =>
      simp only [Env.inOut, hform, htarget, Env.lend] at h
      split at h
      · next hvar => exact ⟨hvar, Dest.elements.inj h⟩
      · exact nomatch h
    | lent block off =>
      simp only [Env.inOut, hform, htarget] at h
      obtain ⟨hobj, hoff⟩ := Dest.elements.inj h
      exact ⟨hobj.symm, hoff.symm⟩

theorem Env.lend_ne_nowhere (env : Env) (y : String) : env.lend y ≠ .nowhere := by
  unfold Env.lend
  split <;> exact nofun

theorem Slot.spares_of_inOut (env : Env) {spelled : Bool} (htarget : s.target = .fresh x spelled)
    (h : ∀ a, s.inArg = some a → env.inOut s a = .nowhere) : s.Spares x := by
  unfold Slot.Spares
  cases hin : s.inArg with
  | none => trivial
  | some a =>
    have hdest := h a hin
    cases hform : s.form with
    | scalar =>
      cases a with
      | placeholder => simp [Env.inOut, hform, htarget] at hdest
      | copied y | named y => exact nofun
      | lent block off => exact nofun
    | sized n | unbounded n =>
      cases a with
      | placeholder =>
        simp only [Env.inOut, hform, htarget] at hdest
        split at hdest
        · next hs => exact hs
        · exact nomatch hdest
      | copied y =>
        simp only [Env.inOut, hform, htarget] at hdest
        split at hdest
        · exact absurd hdest (env.lend_ne_nowhere y)
        · next hy => exact fun _ heq => by_contra fun hs => hy ⟨heq, hs⟩
      | named y =>
        simp only [Env.inOut, hform, htarget] at hdest
        split at hdest
        · next hy => exact fun _ => hy
        · exact absurd hdest (env.lend_ne_nowhere y)
      | lent block off => simp [Env.inOut, hform, htarget] at hdest

end

section

variable {c : Call} {key : c.Key} {i : Fin c.count} {x : String}

theorem Call.Writes.dest_eq (h : c.Writes) (hx : (c.slot i).target = .existing x) :
    c.dest i = .elements (c.env.place x).obj (c.env.place x).off ∧
      (c.env.place x).ty.width = (c.slot i).ty.width := by
  have hcell := @Call.Writes.cell_eq c (i, 0) h (c.slot i).pos
  have hp : c.target (i, 0) = some ((c.env.place x).cell 0) := by simp only [Call.target, hx]
  rw [hp] at hcell
  obtain ⟨off, hdest, hoff⟩ := Call.cell_eq_some hcell
  have hwidth := Call.cell_width hcell
  simp only [Place.cell, Nat.zero_mul, Nat.add_zero] at hdest hoff hwidth
  rw [← hoff] at hdest
  exact ⟨hdest, hwidth⟩

theorem Call.Writes.dest_fresh (h : c.Writes) {spelled : Bool}
    (hx : (c.slot i).target = .fresh x spelled) : c.dest i = .nowhere := by
  refine (h.dest_cases i).resolve_right fun ⟨obj, off, hdest⟩ => ?_
  have hcell := @Call.Writes.cell_eq c (i, 0) h (c.slot i).pos
  simp only [Call.cell, hdest, Call.target, hx] at hcell
  exact nomatch hcell

theorem Call.Writes.apart (h : c.Writes) {key' : c.Key} (hkey : c.Valid key)
    (hkey' : c.Valid key') (hne : key' ≠ key) {p p' : Cell Obj} (hp : c.target key = some p)
    (hp' : c.target key' = some p') : p.Disjoint p' := by
  intro o b hb hb'
  let keys := [key, key'].filter (c.Direct ·.1) ++ c.returned
  have hmem {k : c.Key} (hk : k ∈ [key, key']) (hvalid : c.Valid k) : k ∈ keys := by
    by_cases hd : c.Direct k.1
    · exact List.mem_append_left _ (List.mem_filter.mpr ⟨hk, decide_eq_true hd⟩)
    · exact List.mem_append_right _ (Call.mem_returned.mpr ⟨hd, hvalid⟩)
  have hl : c.Admits (Memory.giving (c.mark key true) keys) := by
    refine Call.admits_giving ?_ _
    intro k hk
    obtain ⟨hk, hd⟩ := List.mem_filter.mp hk
    refine ⟨of_decide_eq_true hd, ?_⟩
    rcases List.mem_cons.mp hk with rfl | hk
    · exact hkey
    · obtain rfl := List.mem_singleton.mp hk
      exact hkey'
  have htrue := h.place_bit hl (hmem (by simp) hkey) hkey (if_pos rfl) hp hb fun _ _ => false
  have hfalse := h.place_bit hl (hmem (by simp) hkey') hkey' (Call.mark_of_ne hne true) hp' hb'
    fun _ _ => false
  rw [htrue] at hfalse
  cases hfalse

theorem Call.Writes.met (h : c.Writes) : c.Met where
  taken := h.taken
  width i x hx := (h.dest_eq hx).2
  room i x ty alloc hx hv := by
    have hvalid : c.Valid (i, 0) := (c.slot i).pos
    have hp : c.target (i, 0) = some ((c.env.place x).cell 0) := by simp only [Call.target, hx]
    have hfits := h.cell_fits hvalid ((h.cell_eq hvalid).trans hp)
    simpa [Place.cell, Env.place, hv, Env.size, Var.size] using hfits
  reached i x hx := by
    obtain ⟨hdest, -⟩ := h.dest_eq hx
    unfold Call.dest at hdest
    rw [hx] at hdest
    cases hin : (c.slot i).inArg with
    | none =>
      rw [hin] at hdest
      rw [Slot.Reached, hin]
      exact Env.reaches_of_outOnly (h.taken i x hx).1 hdest
    | some a =>
      rw [hin] at hdest
      rw [Slot.Reached, hin]
      exact Env.passes_of_inOut hx hdest
  spares i x spelled hx := by
    refine Slot.spares_of_inOut c.env hx fun a hin => ?_
    have hdest := h.dest_fresh hx
    unfold Call.dest at hdest
    rw [hin] at hdest
    exact hdest
  apart i j x y k l hij hx hy hk hl := by
    refine h.apart hk hl (fun heq => hij (congrArg Prod.fst heq).symm) ?_ ?_
    · simp only [Call.target, hx]
    · simp only [Call.target, hy]

end

/-- The out-targets of a call write the places they name exactly if each is of the kind, the width
and the length of its result that the path finds, and no two share storage. -/
theorem writes_iff (c : Call) : c.Writes ↔ c.Met := ⟨Call.Writes.met, Call.Met.writes⟩

/-- A fan at row 1 of two rows. -/
def rowEnv : Env where
  var _ := .column int 1 2
  blockSize _ := 0
  fits _ := Nat.lt_succ_self 1

/-- `f()(count)` in the fan, for a procedure. -/
def rowCall : Call where
  env := rowEnv
  path := .proc
  count := 1
  slot _ := ⟨int, .scalar, Nat.one_pos, none, .existing "count"⟩
  accepted := trivial

/-- The result is stored to row 0. -/
theorem not_writes :
    ¬rowCall.Writes ∧
      rowCall.run (fun _ => 0) (fun _ _ => false) [((⟨0, Nat.one_pos⟩, 0), 7)] =
        some (Memory.store (fun _ _ => false) ⟨.named "count", 0, 32⟩ 7) := by
  refine ⟨fun h => ?_, rfl⟩
  have hrow : 1 = 0 := h.met.reached ⟨0, Nat.one_pos⟩ "count" rfl
  cases hrow

end Arche.Codegen.OutTargets
