import Arche.Lib.Binary

/-!
# The WebAssembly binary format

The grammar of a module, as a reader: the sections in their order, each at most once, a missing
one as an empty list, and nothing behind the last.

* Imports are functions; a memory has no maximum; a constant expression is an `i32.const`; a
  data segment is active. The other forms, the tables, the elements and the custom sections begin
  with other bytes, and what begins with them is refused.
* The grammar of instructions is a parameter: `isExpr` says which bytes are an expression.
-/

namespace Arche.Lib.WasmFormat

open Arche.Lib

structure FuncType where
  params : Bytes
  results : Bytes
deriving DecidableEq, Repr

structure Import where
  moduleName : Bytes
  field : Bytes
  type : Nat
deriving DecidableEq, Repr

structure Global where
  type : UInt8
  isMutable : Bool
  init : Int
deriving DecidableEq, Repr

/-- `kind` is 0 for a function, 2 for a memory, 3 for a global. -/
structure Export where
  name : Bytes
  kind : UInt8
  index : Nat
deriving DecidableEq, Repr

/-- Locals by group of one type, and an expression. -/
structure Code where
  locals : List (Nat × UInt8)
  body : Bytes
deriving DecidableEq, Repr

structure Data where
  offset : Int
  bytes : Bytes
deriving DecidableEq, Repr

structure Module where
  types : List FuncType
  imports : List Import
  funcs : List Nat
  memories : List Nat
  globals : List Global
  exports : List Export
  start : Option Nat
  code : List Code
  data : List Data
deriving DecidableEq, Repr

/-- A function of a module. -/
inductive Function
  | imported (i : Import)
  | defined (type : Nat) (code : Code)
deriving DecidableEq, Repr

/-- The function index space: the imports, then what the module defines. -/
def Module.functions (m : Module) : List Function :=
  m.imports.map .imported ++ List.zipWith .defined m.funcs m.code

/-! ## Readers -/

def u32 : Reader Nat := Reader.unsigned 32

def s32 : Reader Int := Reader.signed 32

def isValType (b : UInt8) : Bool := [0x7f, 0x7e, 0x7d, 0x7c, 0x7b, 0x70, 0x6f].contains b

def valType : Reader UInt8 := Reader.byteIf isValType

def isUtf8 (bs : Bytes) : Bool := (ByteArray.mk bs.toArray).validateUTF8

def name : Reader Bytes := do
  let n ← u32
  let bs ← Reader.blob n
  if isUtf8 bs then return bs else failure

def funcType : Reader FuncType := do
  let _ ← Reader.exactly 0x60
  let params ← Reader.vec 32 valType
  let results ← Reader.vec 32 valType
  return ⟨params, results⟩

def importFunc : Reader Import := do
  let moduleName ← name
  let field ← name
  let _ ← Reader.exactly 0x00
  let type ← u32
  return ⟨moduleName, field, type⟩

/-- A constant expression. -/
def constExpr : Reader Int := do
  let _ ← Reader.exactly 0x41
  let v ← s32
  let _ ← Reader.exactly 0x0b
  return v

def memory : Reader Nat := do
  let _ ← Reader.exactly 0x00
  u32

def globalEntry : Reader Global := do
  let type ← valType
  let mutability ← Reader.byteIf fun b => b == 0 || b == 1
  let init ← constExpr
  return ⟨type, mutability == 1, init⟩

def exportEntry : Reader Export := do
  let field ← name
  let kind ← Reader.byteIf fun b => b == 0x00 || b == 0x02 || b == 0x03
  let index ← u32
  return ⟨field, kind, index⟩

def localGroup : Reader (Nat × UInt8) := do
  let n ← u32
  let type ← valType
  return (n, type)

variable (isExpr : Bytes → Bool)

/-- The locals are fewer than 2^32, and behind them is an expression. -/
def codeEntry : Reader Code := do
  let size ← u32
  let part ← Reader.blob size
  match (Reader.vec 32 localGroup).run part with
  | some (locals, body) =>
    if (locals.map (·.1)).sum < 2 ^ 32 ∧ isExpr body = true then return ⟨locals, body⟩ else failure
  | none => failure

def dataEntry : Reader Data := do
  let _ ← Reader.exactly 0x00
  let offset ← constExpr
  let n ← u32
  let bytes ← Reader.blob n
  return ⟨offset, bytes⟩

/-- A section, if the next one has this number. -/
def optSection {α : Type} (id : UInt8) (r : Reader α) (missing : α) : Reader α := fun
  | [] => some (missing, [])
  | b :: bs => if b = id then (Reader.sized 32 r).run bs else some (missing, b :: bs)

def vecSection {α : Type} (id : UInt8) (r : Reader α) : Reader (List α) :=
  optSection id (Reader.vec 32 r) []

def header : Bytes := [0x00, 0x61, 0x73, 0x6d, 0x01, 0x00, 0x00, 0x00]

def moduleReader : Reader Module := do
  let magic ← Reader.blob header.length
  if magic ≠ header then failure
  let types ← vecSection 1 funcType
  let imports ← vecSection 2 importFunc
  let funcs ← vecSection 3 u32
  let memories ← vecSection 5 memory
  let globals ← vecSection 6 globalEntry
  let exports ← vecSection 7 exportEntry
  let start ← optSection 8 (some <$> u32) none
  let code ← vecSection 10 (codeEntry isExpr)
  let data ← vecSection 11 dataEntry
  return ⟨types, imports, funcs, memories, globals, exports, start, code, data⟩

/-- The module, if the bytes are one: all of them are read, and each function has its code. -/
def decode (bs : Bytes) : Option Module :=
  match (moduleReader isExpr).run bs with
  | some (m, []) => if m.funcs.length = m.code.length then some m else none
  | _ => none

/-! ## What is read -/

section

variable {α : Type} {r : Reader α} {bs : Bytes}

theorem reads_name (hn : bs.length < 2 ^ 32) (hu : isUtf8 bs = true) :
    Reads name (uleb bs.length ++ bs) bs := by
  refine (Reads.unsigned hn).bind ((Reads.blob bs).last ?_)
  rw [if_pos hu]
  exact Reads.pure bs

theorem reads_valTypes {ts : Bytes} (hn : ts.length < 2 ^ 32) (ht : ∀ t ∈ ts, isValType t = true) :
    Reads (Reader.vec 32 valType) (uleb ts.length ++ ts) ts := by
  refine Reads.vec hn ?_
  clear hn
  induction ts with
  | nil => exact Reads.times_zero
  | cons t ts ih =>
    simp only [List.forall_mem_cons] at ht
    exact Reads.times_succ (Reads.byteIf ht.1) (ih ht.2)

theorem reads_constExpr {v : Int} (hlow : -2 ^ 31 ≤ v) (hhigh : v < 2 ^ 31) :
    Reads constExpr ([0x41] ++ (sleb v ++ [0x0b])) v :=
  (Reads.exactly 0x41).bind ((Reads.signed (n := 32) hlow hhigh).bind (Reads.exactly 0x0b).map)

theorem reads_code {locals : List (Nat × UInt8)} {groups body : Bytes}
    (hl : Reads (Reader.vec 32 localGroup) groups locals)
    (hsum : (locals.map (·.1)).sum < 2 ^ 32) (hbody : isExpr body = true)
    (hn : (groups ++ body).length < 2 ^ 32) :
    Reads (codeEntry isExpr) (uleb (groups ++ body).length ++ (groups ++ body)) ⟨locals, body⟩ := by
  refine (Reads.unsigned hn).bind ((Reads.blob (groups ++ body)).last ?_)
  rw [hl body]
  simp only [hsum, hbody, and_self, if_true]
  exact Reads.pure _

/-! ### Sections -/

/-- The end, or a section with a higher number. -/
def Above (id : UInt8) (bs : Bytes) : Prop := ∀ b ∈ bs.head?, id < b

/-- The bytes are read as the section, with what may follow it, and begin with its number. -/
structure IsSection (id : UInt8) (r : Reader α) (missing : α) (sec : Bytes) (x : α) : Prop where
  reads : ∀ rest, Above id rest → (optSection id r missing).run (sec ++ rest) = some (x, rest)
  head : ∀ b ∈ sec.head?, b = id

variable {id : UInt8} {missing x : α}

theorem IsSection.absent : IsSection id r missing [] missing where
  reads
    | [], _ => rfl
    | b :: rest, h => if_neg (UInt8.ne_of_lt (h b rfl)).symm
  head := by simp

theorem IsSection.present (hn : bs.length < 2 ^ 32) (hr : Reads r bs x) :
    IsSection id r missing ([id] ++ (uleb bs.length ++ bs)) x where
  reads rest _ := by
    show (if id = id then (Reader.sized 32 r).run (uleb bs.length ++ bs ++ rest) else _) = _
    rw [if_pos rfl, Reads.sized hn hr]
  head := by simp

/-- What is above a section is above a lower number with the section before it. -/
theorem Above.before {id' : UInt8} {sec rest : Bytes} (hr : Above id rest)
    (h : IsSection id r missing sec x) (hid : id' < id) : Above id' (sec ++ rest) := by
  cases sec with
  | nil => exact fun b hb => UInt8.lt_trans hid (hr b hb)
  | cons b sec =>
    intro b' hb'
    cases hb'
    exact h.head b rfl ▸ hid

theorem Above.nil : Above id [] := by simp [Above]

end

/-- Sections in their order are a module. -/
theorem decode_sections {m : Module} {s₁ s₂ s₃ s₅ s₆ s₇ s₈ s₁₀ s₁₁ : Bytes}
    (h₁ : IsSection 1 (Reader.vec 32 funcType) [] s₁ m.types)
    (h₂ : IsSection 2 (Reader.vec 32 importFunc) [] s₂ m.imports)
    (h₃ : IsSection 3 (Reader.vec 32 u32) [] s₃ m.funcs)
    (h₅ : IsSection 5 (Reader.vec 32 memory) [] s₅ m.memories)
    (h₆ : IsSection 6 (Reader.vec 32 globalEntry) [] s₆ m.globals)
    (h₇ : IsSection 7 (Reader.vec 32 exportEntry) [] s₇ m.exports)
    (h₈ : IsSection 8 (some <$> u32) none s₈ m.start)
    (h₁₀ : IsSection 10 (Reader.vec 32 (codeEntry isExpr)) [] s₁₀ m.code)
    (h₁₁ : IsSection 11 (Reader.vec 32 dataEntry) [] s₁₁ m.data)
    (hcode : m.funcs.length = m.code.length) :
    decode isExpr (header ++ (s₁ ++ (s₂ ++ (s₃ ++ (s₅ ++ (s₆ ++ (s₇ ++ (s₈ ++ (s₁₀ ++ s₁₁))))))))) =
      some m := by
  -- what follows each section is above it
  have a₁₁ : Above 11 [] := Above.nil
  have a₁₀ : Above 10 _ := a₁₁.before h₁₁ (by decide)
  have a₈ : Above 8 _ := a₁₀.before h₁₀ (by decide)
  have a₇ : Above 7 _ := a₈.before h₈ (by decide)
  have a₆ : Above 6 _ := a₇.before h₇ (by decide)
  have a₅ : Above 5 _ := a₆.before h₆ (by decide)
  have a₃ : Above 3 _ := a₅.before h₅ (by decide)
  have a₂ : Above 2 _ := a₃.before h₃ (by decide)
  have a₁ : Above 1 _ := a₂.before h₂ (by decide)
  have hrun : (moduleReader isExpr).run
      (header ++ (s₁ ++ (s₂ ++ (s₃ ++ (s₅ ++ (s₆ ++ (s₇ ++ (s₈ ++ (s₁₀ ++ (s₁₁ ++ [])))))))))) =
      some (m, []) := by
    unfold moduleReader vecSection
    simp only [StateT.run_bind, Reads.blob header _, ne_eq, not_true_eq_false, if_false,
      Option.bind_eq_bind, Option.bind_some, h₁.reads _ a₁, h₂.reads _ a₂, h₃.reads _ a₃,
      h₅.reads _ a₅, h₆.reads _ a₆, h₇.reads _ a₇, h₈.reads _ a₈, h₁₀.reads _ a₁₀, h₁₁.reads _ a₁₁]
    rfl
  rw [List.append_nil] at hrun
  unfold decode
  rw [hrun]
  exact if_pos hcode

end Arche.Lib.WasmFormat
