import Arche.Lib.WasmFormat

/-!
# The module writer of the direct wasm backend

wasm_encode.c builds the sections of a module in buffers, with a count for each, and
`wm_finish` puts them together.

* A buffer is its bytes. A `const char *` is the bytes before its zero.
* `int` is `Int32`, and `wb_u` of an `int` takes it as 64 bits with its sign.
* The counters are natural numbers. In a module under 4 GiB none of them overflows.
* `wm_code` follows its `wm_func`, as the header says.
-/

namespace Arche.Codegen.WasmEncode

open Arche.Lib
open Arche.Lib.WasmFormat

/-! ## Seven bits -/

theorem toNat_low_bits (v : UInt64) : (v &&& 0x7f).toUInt8.toNat = v.toNat % 128 := by
  have h : (v &&& 0x7f).toNat = v.toNat % 128 := by
    rw [UInt64.toNat_and]
    exact Nat.and_two_pow_sub_one_eq_mod v.toNat 7
  rw [UInt64.toNat_toUInt8, h]
  omega

theorem toNat_shift (v : UInt64) : (v >>> 7).toNat = v.toNat / 128 := by
  rw [UInt64.toNat_shiftRight]
  exact Nat.shiftRight_eq_div_pow v.toNat 7

theorem toInt_shift (v : Int64) : (v >>> 7).toInt = v.toInt / 128 := by
  have h : (v >>> 7).toInt = (v.toBitVec.sshiftRight 7).toInt := rfl
  rw [h, BitVec.toInt_sshiftRight]
  exact Int.shiftRight_eq_div_pow v.toInt 7

theorem toNat_low_bits_int (v : Int64) :
    (v &&& 0x7f).toUInt64.toUInt8.toNat = (v.toInt % 128).toNat := by
  have h : (v &&& 0x7f).toUInt64 = v.toUInt64 &&& 0x7f := rfl
  have hv : v.toInt = v.toBitVec.toInt := rfl
  have hu : v.toUInt64.toNat = v.toBitVec.toNat := rfl
  rw [h, toNat_low_bits, hv, hu, BitVec.toInt_eq_toNat_cond]
  split <;> omega

theorem high_bit {n : Nat} (h : n < 128) : UInt8.ofNat n ||| 0x80 = UInt8.ofNat (n + 128) := by
  revert n
  decide +kernel

theorem bit_six {n : Nat} (h : n < 128) : UInt8.ofNat n &&& 0x40 = 0 ↔ n < 64 := by
  revert n
  decide +kernel

/-- A byte of seven bits is the byte of its number. -/
theorem eq_ofNat {b : UInt8} {n : Nat} (h : b.toNat = n) : b = UInt8.ofNat n := by
  rw [← h, UInt8.ofNat_toNat]

theorem shift_ne_zero_iff (v : UInt64) : v >>> 7 ≠ 0 ↔ 128 ≤ v.toNat := by
  rw [ne_eq, ← UInt64.toNat_inj, toNat_shift]
  show ¬ v.toNat / 128 = 0 ↔ _
  omega

/-- The test of `wb_i` for its last byte. -/
theorem last_digit_iff (v : Int64) :
    (v >>> 7 = 0 ∧ (v &&& 0x7f).toUInt64.toUInt8 &&& 0x40 = 0 ∨
      v >>> 7 = -1 ∧ (v &&& 0x7f).toUInt64.toUInt8 &&& 0x40 ≠ 0) ↔ -64 ≤ v.toInt ∧ v.toInt < 64 := by
  have hb := eq_ofNat (toNat_low_bits_int v)
  rw [← Int64.toInt_inj, ← Int64.toInt_inj, toInt_shift, hb, ne_eq, bit_six (by omega)]
  show v.toInt / 128 = 0 ∧ _ ∨ v.toInt / 128 = -1 ∧ _ ↔ _
  omega

/-! ## The buffer -/

/-- `wb_u`. -/
def wbU (b : Bytes) (v : UInt64) : Bytes :=
  let byte := (v &&& 0x7f).toUInt8
  if v >>> 7 ≠ 0 then wbU (b ++ [byte ||| 0x80]) (v >>> 7) else b ++ [byte]
termination_by v.toNat
decreasing_by
  rw [shift_ne_zero_iff] at *
  rw [toNat_shift]
  omega

/-- `wb_i`. The shift is arithmetic. -/
def wbI (b : Bytes) (v : Int64) : Bytes :=
  let byte := (v &&& 0x7f).toUInt64.toUInt8
  if v >>> 7 = 0 ∧ byte &&& 0x40 = 0 ∨ v >>> 7 = -1 ∧ byte &&& 0x40 ≠ 0 then b ++ [byte]
  else wbI (b ++ [byte ||| 0x80]) (v >>> 7)
termination_by v.toInt.natAbs
decreasing_by
  rw [last_digit_iff] at *
  rw [toInt_shift]
  omega

/-- `wb_u` of a `size_t`. -/
def wbSize (b : Bytes) (n : Nat) : Bytes := wbU b (UInt64.ofNat n)

/-- `wb_u` of an `int`. -/
def wbInt (b : Bytes) (i : Int32) : Bytes := wbU b i.toInt64.toUInt64

/-- `wb_name`. -/
def wbName (b s : Bytes) : Bytes := wbSize b s.length ++ s

/-! ### The digits written -/

theorem wbU_eq (b : Bytes) (v : UInt64) : wbU b v = b ++ uleb v.toNat := by
  induction b, v using wbU.induct with
  | case1 b v byte hmore ih =>
    have hv := (shift_ne_zero_iff v).mp hmore
    have hbyte : byte = UInt8.ofNat (v.toNat % 128) := eq_ofNat (toNat_low_bits v)
    rw [wbU, if_pos hmore, ih, uleb.eq_def v.toNat, if_neg (by omega), hbyte, high_bit (by omega),
      toNat_shift, List.append_assoc]
    rfl
  | case2 b v hlast =>
    have hv := mt (shift_ne_zero_iff v).mpr hlast
    have hbyte := eq_ofNat (toNat_low_bits v)
    rw [wbU, if_neg hlast, uleb, if_pos (by omega), hbyte, Nat.mod_eq_of_lt (by omega)]

theorem wbI_eq (b : Bytes) (v : Int64) : wbI b v = b ++ sleb v.toInt := by
  induction b, v using wbI.induct with
  | case1 b v byte hlast =>
    rw [wbI, if_pos hlast, sleb, if_pos ((last_digit_iff v).mp hlast),
      eq_ofNat (toNat_low_bits_int v)]
  | case2 b v byte hmore ih =>
    have hbyte : byte = UInt8.ofNat (v.toInt % 128).toNat := eq_ofNat (toNat_low_bits_int v)
    rw [wbI, if_neg hmore, ih, sleb.eq_def v.toInt, if_neg (mt (last_digit_iff v).mpr hmore), hbyte,
      high_bit (by omega), toInt_shift, List.append_assoc]
    rfl

theorem wbSize_eq (b : Bytes) (n : Nat) : wbSize b n = b ++ uleb (n % 2 ^ 64) := by
  rw [wbSize, wbU_eq, UInt64.toNat_ofNat']

theorem wbInt_eq (b : Bytes) (i : Int32) : wbInt b i = b ++ uleb i.toInt64.toUInt64.toNat := wbU_eq b _

theorem wbName_eq (b s : Bytes) : wbName b s = b ++ (uleb (s.length % 2 ^ 64) ++ s) := by
  rw [wbName, wbSize_eq, List.append_assoc]

/-! ## The module -/

/-- `WasmModule`. -/
structure WasmModule where
  types : Bytes
  typeCount : Nat
  imports : Bytes
  importCount : Nat
  funcs : Bytes
  funcCount : Nat
  globals : Bytes
  globalCount : Nat
  exports : Bytes
  exportCount : Nat
  code : Bytes
  codeCount : Nat
  data : Bytes
  dataCount : Nat
  hasMemory : Bool
  memMin : Int32
  hasStart : Bool
  startIdx : Int32

/-- `wm_init`. -/
def wmInit : WasmModule :=
  ⟨[], 0, [], 0, [], 0, [], 0, [], 0, [], 0, [], 0, false, 0, false, 0⟩

/-- "env". -/
def env : Bytes := [0x65, 0x6e, 0x76]

/-- `wm_type`: the index, and the module. -/
def wmType (m : WasmModule) (params results : Bytes) : Nat × WasmModule :=
  let b := m.types ++ [0x60]
  let b := wbSize b params.length ++ params
  let b := wbSize b results.length ++ results
  (m.typeCount, { m with types := b, typeCount := m.typeCount + 1 })

/-- `wm_import_func`. -/
def wmImportFunc (m : WasmModule) (field : Bytes) (typeIdx : Int32) : Nat × WasmModule :=
  let b := wbName (wbName m.imports env) field ++ [0x00]
  (m.importCount, { m with imports := wbInt b typeIdx, importCount := m.importCount + 1 })

/-- `wm_memory`. -/
def wmMemory (m : WasmModule) (minPages : Int32) : WasmModule :=
  { m with hasMemory := true, memMin := minPages }

/-- `wm_global_i32`. -/
def wmGlobalI32 (m : WasmModule) (isMutable : Bool) (init : Int32) : Nat × WasmModule :=
  let b := m.globals ++ [0x7f] ++ [if isMutable then 1 else 0] ++ [0x41]
  let b := wbI b init.toInt64 ++ [0x0b]
  (m.globalCount, { m with globals := b, globalCount := m.globalCount + 1 })

/-- `wm_func`. -/
def wmFunc (m : WasmModule) (typeIdx : Int32) : Nat × WasmModule :=
  (m.importCount + m.funcCount,
    { m with funcs := wbInt m.funcs typeIdx, funcCount := m.funcCount + 1 })

/-- The groups of locals, count and type. -/
def wbLocals (b : Bytes) : List (UInt32 × UInt8) → Bytes
  | [] => b
  | (count, type) :: ls => wbLocals (wbU b count.toUInt64 ++ [type]) ls

/-- `wm_code`. -/
def wmCode (m : WasmModule) (locals : List (UInt32 × UInt8)) (body : Bytes) : WasmModule :=
  let fb := wbLocals (wbSize [] locals.length) locals ++ body
  { m with code := wbSize m.code fb.length ++ fb, codeCount := m.codeCount + 1 }

/-- `wm_export_func`, `wm_export_mem` and `wm_export_global`, by what they export. -/
def wmExport (m : WasmModule) (name : Bytes) (kind : UInt8) (index : Int32) : WasmModule :=
  let b := wbName m.exports name ++ [kind]
  { m with exports := wbInt b index, exportCount := m.exportCount + 1 }

/-- `wm_export_func`. -/
def wmExportFunc (m : WasmModule) (name : Bytes) (funcIdx : Int32) : WasmModule :=
  wmExport m name 0x00 funcIdx

/-- `wm_export_mem`. -/
def wmExportMem (m : WasmModule) (name : Bytes) : WasmModule := wmExport m name 0x02 0

/-- `wm_export_global`. -/
def wmExportGlobal (m : WasmModule) (name : Bytes) (gi : Int32) : WasmModule :=
  wmExport m name 0x03 gi

/-- `wm_start`. -/
def wmStart (m : WasmModule) (funcIdx : Int32) : WasmModule :=
  { m with hasStart := true, startIdx := funcIdx }

/-- `wm_data`. The offset is taken as an `int32_t`. -/
def wmData (m : WasmModule) (offset : UInt32) (bytes : Bytes) : WasmModule :=
  let b := m.data ++ [0x00] ++ [0x41]
  let b := wbI b offset.toInt32.toInt64 ++ [0x0b]
  { m with data := wbSize b bytes.length ++ bytes, dataCount := m.dataCount + 1 }

/-- The section of a content. -/
def emitSection (out : Bytes) (id : UInt8) (s : Bytes) : Bytes :=
  wbSize (out ++ [id]) s.length ++ s

/-- `emit_vec_section`. -/
def emitVecSection (out : Bytes) (id : UInt8) (count : Nat) (content : Bytes) : Bytes :=
  if count = 0 then out else emitSection out id (wbSize [] count ++ content)

/-- `wm_finish`. -/
def wmFinish (m : WasmModule) : Bytes :=
  let out : Bytes := [0x00, 0x61, 0x73, 0x6d, 0x01, 0x00, 0x00, 0x00]
  let out := emitVecSection out 1 m.typeCount m.types
  let out := emitVecSection out 2 m.importCount m.imports
  let out := emitVecSection out 3 m.funcCount m.funcs
  let out := if m.hasMemory then emitSection out 5 (wbInt (wbSize [] 1 ++ [0x00]) m.memMin) else out
  let out := emitVecSection out 6 m.globalCount m.globals
  let out := emitVecSection out 7 m.exportCount m.exports
  let out := if m.hasStart then emitSection out 8 (wbInt [] m.startIdx) else out
  let out := emitVecSection out 10 m.codeCount m.code
  emitVecSection out 11 m.dataCount m.data

/-! ## Calls -/

/-- A call of the builder. A function comes with its code. -/
inductive Call
  | type (params results : Bytes)
  | importFunc (field : Bytes) (typeIdx : Int32)
  | memory (minPages : Int32)
  | globalI32 (isMutable : Bool) (init : Int32)
  | func (typeIdx : Int32) (locals : List (UInt32 × UInt8)) (body : Bytes)
  | exportFunc (name : Bytes) (funcIdx : Int32)
  | exportMem (name : Bytes)
  | exportGlobal (name : Bytes) (gi : Int32)
  | start (funcIdx : Int32)
  | data (offset : UInt32) (bytes : Bytes)
deriving DecidableEq

def Call.run (m : WasmModule) : Call → WasmModule
  | .type params results => (wmType m params results).2
  | .importFunc field typeIdx => (wmImportFunc m field typeIdx).2
  | .memory minPages => wmMemory m minPages
  | .globalI32 isMutable init => (wmGlobalI32 m isMutable init).2
  | .func typeIdx locals body => wmCode (wmFunc m typeIdx).2 locals body
  | .exportFunc name funcIdx => wmExportFunc m name funcIdx
  | .exportMem name => wmExportMem m name
  | .exportGlobal name gi => wmExportGlobal m name gi
  | .start funcIdx => wmStart m funcIdx
  | .data offset bytes => wmData m offset bytes

def build (calls : List Call) : WasmModule := calls.foldl Call.run wmInit

/-- An index as the format has it. -/
def index (i : Int32) : Nat := i.toInt.toNat

def codeOf (locals : List (UInt32 × UInt8)) (body : Bytes) : Code :=
  ⟨locals.map fun l => (l.1.toNat, l.2), body⟩

/-- What a call adds to a module. The last memory and the last start function count. -/
def Call.add (a : Module) : Call → Module
  | .type params results => { a with types := a.types ++ [⟨params, results⟩] }
  | .importFunc field typeIdx => { a with imports := a.imports ++ [⟨env, field, index typeIdx⟩] }
  | .memory minPages => { a with memories := [index minPages] }
  | .globalI32 isMutable init => { a with globals := a.globals ++ [⟨0x7f, isMutable, init.toInt⟩] }
  | .func typeIdx locals body =>
    { a with funcs := a.funcs ++ [index typeIdx], code := a.code ++ [codeOf locals body] }
  | .exportFunc name funcIdx => { a with exports := a.exports ++ [⟨name, 0x00, index funcIdx⟩] }
  | .exportMem name => { a with exports := a.exports ++ [⟨name, 0x02, 0⟩] }
  | .exportGlobal name gi => { a with exports := a.exports ++ [⟨name, 0x03, index gi⟩] }
  | .start funcIdx => { a with start := some (index funcIdx) }
  | .data offset bytes => { a with data := a.data ++ [⟨offset.toInt32.toInt, bytes⟩] }

def added (calls : List Call) : Module := calls.foldl Call.add ⟨[], [], [], [], [], [], none, [], []⟩

/-- The function a call adds, with the index it returns. -/
def Call.returned (m : WasmModule) : Call → Option (Function × Nat)
  | .importFunc field typeIdx =>
    some (.imported ⟨env, field, index typeIdx⟩, (wmImportFunc m field typeIdx).1)
  | .func typeIdx locals body =>
    some (.defined (index typeIdx) (codeOf locals body), (wmFunc m typeIdx).1)
  | _ => none

/-- The functions added, with the indices returned, in the order of the calls. -/
def returned (m : WasmModule) : List Call → List (Function × Nat)
  | [] => []
  | c :: cs => (c.returned m).toList ++ returned (c.run m) cs

def Call.isImport : Call → Bool
  | .importFunc _ _ => true
  | _ => false

def Call.isFunc : Call → Bool
  | .func _ _ _ => true
  | _ => false

/-- All imports are added before any function. -/
def ImportsFirst (calls : List Call) : Prop :=
  calls.Pairwise fun c c' => c.isFunc = true → c'.isImport = false

/-- What the format asks of the arguments: the indices are not negative, the names are UTF-8, the
types are value types, the body is an expression, and the locals are fewer than 2^32. -/
def Call.Ok (isExpr : Bytes → Bool) : Call → Prop
  | .type params results =>
    (∀ t ∈ params, isValType t = true) ∧ ∀ t ∈ results, isValType t = true
  | .importFunc field typeIdx => isUtf8 field = true ∧ 0 ≤ typeIdx
  | .memory minPages => 0 ≤ minPages
  | .globalI32 _ _ => True
  | .func typeIdx locals body =>
    0 ≤ typeIdx ∧ (∀ l ∈ locals, isValType l.2 = true) ∧
      (locals.map (·.1.toNat)).sum < 2 ^ 32 ∧ isExpr body = true
  | .exportFunc name funcIdx => isUtf8 name = true ∧ 0 ≤ funcIdx
  | .exportMem name => isUtf8 name = true
  | .exportGlobal name gi => isUtf8 name = true ∧ 0 ≤ gi
  | .start funcIdx => 0 ≤ funcIdx
  | .data _ _ => True

instance (isExpr : Bytes → Bool) : (c : Call) → Decidable (c.Ok isExpr)
  | .type _ _ => @instDecidableAnd _ _ (List.decidableBAll _ _) (List.decidableBAll _ _)
  | .importFunc _ _ | .exportFunc _ _ | .exportGlobal _ _ => instDecidableAnd
  | .memory minPages => inferInstanceAs (Decidable (0 ≤ minPages))
  | .globalI32 _ _ | .data _ _ => .isTrue trivial
  | .func _ _ _ => @instDecidableAnd _ _ _ (@instDecidableAnd _ _ (List.decidableBAll _ _) _)
  | .exportMem name => inferInstanceAs (Decidable (isUtf8 name = true))
  | .start funcIdx => inferInstanceAs (Decidable (0 ≤ funcIdx))

instance (calls : List Call) : Decidable (ImportsFirst calls) :=
  inferInstanceAs (Decidable (calls.Pairwise _))

/-- The bytes are read as the module that was added, and each index returned is the place of its
function. -/
def ReadBack (isExpr : Bytes → Bool) (calls : List Call) : Prop :=
  decode isExpr (wmFinish (build calls)) = some (added calls) ∧
    returned wmInit calls = (added calls).functions.zipIdx

instance (isExpr : Bytes → Bool) (calls : List Call) : Decidable (ReadBack isExpr calls) :=
  inferInstanceAs (Decidable (_ ∧ _))

/-! ## What is read back -/

section

/-- A length in a part that is short is written as it is. -/
theorem mod_of_lt {n l : Nat} (h : l < 2 ^ 32) (hn : n ≤ l) : n % 2 ^ 64 = n :=
  Nat.mod_eq_of_lt (by omega)

/-- An `int` that is not negative is written as the index it is. -/
theorem toNat_index {i : Int32} (hi : 0 ≤ i) : i.toInt64.toUInt64.toNat = index i := by
  have h : 0 ≤ i.toInt64 := by
    rw [Int64.le_iff_toInt_le, Int32.toInt_toInt64]
    exact Int32.le_iff_toInt_le.mp hi
  rw [Int64.toNat_toUInt64_of_le h]
  exact congrArg Int.toNat i.toInt_toInt64

theorem index_lt (i : Int32) : index i < 2 ^ 32 := by
  have := i.toInt_lt
  unfold index
  omega

theorem reads_index {i : Int32} (hi : 0 ≤ i) : Reads u32 (uleb i.toInt64.toUInt64.toNat) (index i) := by
  rw [toNat_index hi]
  exact Reads.unsigned (index_lt i)

/-- A constant expression of an `i32`. -/
theorem reads_i32 (i : Int32) : Reads constExpr ([0x41] ++ (sleb i.toInt64.toInt ++ [0x0b])) i.toInt := by
  rw [Int32.toInt_toInt64]
  exact reads_constExpr i.le_toInt i.toInt_lt

theorem reads_type {params results : Bytes} (hp : ∀ t ∈ params, isValType t = true)
    (hr : ∀ t ∈ results, isValType t = true)
    (hlt : ([0x60] ++ (uleb (params.length % 2 ^ 64) ++ (params ++ (uleb (results.length % 2 ^ 64) ++
      results)))).length < 2 ^ 32) :
    Reads funcType ([0x60] ++ (uleb (params.length % 2 ^ 64) ++ (params ++
      (uleb (results.length % 2 ^ 64) ++ results)))) ⟨params, results⟩ := by
  simp only [List.length_append] at hlt
  rw [mod_of_lt hlt (by omega), mod_of_lt hlt (by omega), ← List.append_assoc (uleb _) params]
  exact (Reads.exactly 0x60).bind ((reads_valTypes (by omega) hp).bind
    (reads_valTypes (by omega) hr).map)

theorem reads_import {field : Bytes} {typeIdx : Int32} (hu : isUtf8 field = true) (hi : 0 ≤ typeIdx)
    (hlt : field.length < 2 ^ 32) :
    Reads importFunc (uleb (env.length % 2 ^ 64) ++ (env ++ (uleb (field.length % 2 ^ 64) ++ (field ++
      ([0x00] ++ uleb typeIdx.toInt64.toUInt64.toNat))))) ⟨env, field, index typeIdx⟩ := by
  rw [mod_of_lt hlt (Nat.le_refl _), ← List.append_assoc (uleb field.length),
    ← List.append_assoc (uleb (env.length % 2 ^ 64))]
  have henv : isUtf8 env = true := by decide +kernel
  exact (reads_name (by decide) henv).bind ((reads_name hlt hu).bind
    ((Reads.exactly 0x00).bind (reads_index hi).map))

theorem reads_global (isMutable : Bool) (init : Int32) :
    Reads globalEntry ([0x7f] ++ ([if isMutable then 1 else 0] ++ ([0x41] ++
      (sleb init.toInt64.toInt ++ [0x0b])))) ⟨0x7f, isMutable, init.toInt⟩ := by
  have hm : Reads (Reader.byteIf fun b => b == 0 || b == 1) [if isMutable then 1 else 0]
      (if isMutable then 1 else 0) := Reads.byteIf (by cases isMutable <;> rfl)
  have hv : Reads valType [0x7f] 0x7f := Reads.byteIf (by decide)
  cases isMutable with
  | false => exact hv.bind (hm.bind (reads_i32 init).map)
  | true => exact hv.bind (hm.bind (reads_i32 init).map)

theorem reads_export {field : Bytes} {kind : UInt8} {i : Int32} (hu : isUtf8 field = true)
    (hk : (kind == 0x00 || kind == 0x02 || kind == 0x03) = true) (hi : 0 ≤ i)
    (hlt : field.length < 2 ^ 32) :
    Reads exportEntry (uleb (field.length % 2 ^ 64) ++ (field ++ ([kind] ++
      uleb i.toInt64.toUInt64.toNat))) ⟨field, kind, index i⟩ := by
  rw [mod_of_lt hlt (Nat.le_refl _), ← List.append_assoc]
  exact (reads_name hlt hu).bind ((Reads.byteIf hk).bind (reads_index hi).map)

theorem reads_data (offset : UInt32) {bytes : Bytes} (hlt : bytes.length < 2 ^ 32) :
    Reads dataEntry ([0x00] ++ ([0x41] ++ (sleb offset.toInt32.toInt64.toInt ++ ([0x0b] ++
      (uleb (bytes.length % 2 ^ 64) ++ bytes))))) ⟨offset.toInt32.toInt, bytes⟩ := by
  rw [mod_of_lt hlt (Nat.le_refl _), ← List.append_assoc (sleb _), ← List.append_assoc [0x41]]
  exact (Reads.exactly 0x00).bind ((reads_i32 _).bind ((Reads.unsigned hlt).bind
    (Reads.blob bytes).map))

/-- The groups of locals as they are written. -/
theorem wbLocals_eq (b : Bytes) (locals : List (UInt32 × UInt8)) :
    wbLocals b locals = b ++ wbLocals [] locals := by
  induction locals generalizing b with
  | nil => exact (List.append_nil b).symm
  | cons l ls ih =>
    obtain ⟨count, type⟩ := l
    rw [wbLocals, wbLocals, ih, ih (wbU [] _ ++ _), wbU_eq, wbU_eq, List.nil_append,
      List.append_assoc, List.append_assoc, List.append_assoc]

theorem reads_locals {locals : List (UInt32 × UInt8)} (hv : ∀ l ∈ locals, isValType l.2 = true) :
    Reads (Reader.times localGroup locals.length) (wbLocals [] locals) (codeOf locals []).locals := by
  induction locals with
  | nil => exact Reads.times_zero
  | cons l ls ih =>
    obtain ⟨count, type⟩ := l
    simp only [List.forall_mem_cons] at hv
    have hgroup : Reads localGroup (uleb count.toNat ++ [type]) (count.toNat, type) :=
      (Reads.unsigned count.toNat_lt).bind (Reads.byteIf hv.1).map
    have h := Reads.times_succ hgroup (ih hv.2)
    rw [wbLocals, wbLocals_eq, wbU_eq, List.nil_append]
    exact h

theorem length_locals (locals : List (UInt32 × UInt8)) :
    locals.length ≤ (wbLocals [] locals).length := by
  induction locals with
  | nil => exact Nat.le_refl 0
  | cons l ls ih =>
    obtain ⟨count, type⟩ := l
    rw [wbLocals, wbLocals_eq]
    simp only [List.length_append, List.length_cons]
    omega

theorem reads_codeEntry {isExpr : Bytes → Bool} {locals : List (UInt32 × UInt8)} {body : Bytes}
    (hv : ∀ l ∈ locals, isValType l.2 = true) (hsum : (locals.map (·.1.toNat)).sum < 2 ^ 32)
    (hbody : isExpr body = true) {fb : Bytes}
    (hfb : fb = uleb (locals.length % 2 ^ 64) ++ wbLocals [] locals ++ body)
    (hlt : fb.length < 2 ^ 32) :
    Reads (codeEntry isExpr) (uleb (fb.length % 2 ^ 64) ++ fb) (codeOf locals body) := by
  subst hfb
  have hn := length_locals locals
  have hlen := hlt
  simp only [List.length_append] at hlen
  rw [mod_of_lt hlt (Nat.le_refl _)]
  rw [mod_of_lt hlen (show locals.length ≤ _ by omega)] at hlt ⊢
  have hcount : (codeOf locals []).locals.length = locals.length := List.length_map _
  have hl : Reads (Reader.vec 32 localGroup) _ (codeOf locals []).locals :=
    Reads.vec (by omega) (hcount.symm ▸ reads_locals hv)
  rw [hcount] at hl
  refine reads_code isExpr hl ?_ hbody hlt
  show ((locals.map fun l => (l.1.toNat, l.2)).map (·.1)).sum < 2 ^ 32
  rwa [List.map_map]

end

/-! ## The buffers -/

variable {isExpr : Bytes → Bool}

/-- The buffers hold what was added. -/
structure Represents (isExpr : Bytes → Bool) (m : WasmModule) (a : Module) : Prop where
  types : Entries funcType 32 m.typeCount m.types a.types
  imports : Entries importFunc 32 m.importCount m.imports a.imports
  funcs : Entries u32 32 m.funcCount m.funcs a.funcs
  globals : Entries globalEntry 32 m.globalCount m.globals a.globals
  exports : Entries exportEntry 32 m.exportCount m.exports a.exports
  code : Entries (codeEntry isExpr) 32 m.codeCount m.code a.code
  data : Entries dataEntry 32 m.dataCount m.data a.data
  memories : a.memories = if m.hasMemory then [index m.memMin] else []
  start : a.start = if m.hasStart then some (index m.startIdx) else none
  memMin : 0 ≤ m.memMin
  startIdx : 0 ≤ m.startIdx
  paired : a.funcs.length = a.code.length

namespace Represents

theorem empty : Represents isExpr wmInit ⟨[], [], [], [], [], [], none, [], []⟩ where
  types := Entries.empty
  imports := Entries.empty
  funcs := Entries.empty
  globals := Entries.empty
  exports := Entries.empty
  code := Entries.empty
  data := Entries.empty
  memories := rfl
  start := rfl
  memMin := by decide
  startIdx := by decide
  paired := rfl

variable {m : WasmModule} {a : Module}

theorem exported (h : Represents isExpr m a) {name : Bytes} {kind : UInt8} {i : Int32}
    (hu : isUtf8 name = true) (hk : (kind == 0x00 || kind == 0x02 || kind == 0x03) = true)
    (hi : 0 ≤ i) : Represents isExpr (wmExport m name kind i)
      { a with exports := a.exports ++ [⟨name, kind, index i⟩] } := by
  refine { h with exports := ?_ }
  simp only [wmExport, wbName_eq, wbInt_eq, List.append_assoc]
  refine h.exports.add (by simp) fun hlt => reads_export hu hk hi ?_
  simp only [List.length_append] at hlt
  omega

/-- A call adds its entry. -/
theorem call (h : Represents isExpr m a) {c : Call} (hc : c.Ok isExpr) :
    Represents isExpr (c.run m) (c.add a) := by
  cases c with
  | type params results =>
    refine { h with types := ?_ }
    simp only [Call.run, wmType, wbSize_eq, List.append_assoc]
    exact h.types.add (by simp) (reads_type hc.1 hc.2)
  | importFunc field typeIdx =>
    refine { h with imports := ?_ }
    simp only [Call.run, wmImportFunc, wbName_eq, wbInt_eq, List.append_assoc]
    refine h.imports.add (by simp) fun hlt => reads_import hc.1 hc.2 ?_
    simp only [List.length_append] at hlt
    omega
  | memory minPages => exact { h with memories := rfl, memMin := hc }
  | globalI32 isMutable init =>
    refine { h with globals := ?_ }
    simp only [Call.run, wmGlobalI32, wbI_eq, List.append_assoc]
    exact h.globals.add (by simp) fun _ => reads_global isMutable init
  | func typeIdx locals body =>
    refine { h with funcs := ?_, code := ?_, paired := ?_ }
    · simp only [Call.run, wmCode, wmFunc, wbInt_eq]
      exact h.funcs.add (uleb_ne_nil _) fun _ => reads_index hc.1
    · simp only [Call.run, wmCode, wmFunc]
      rw [wbSize_eq, List.append_assoc]
      refine h.code.add (by simp [uleb_ne_nil]) fun hlt =>
        reads_codeEntry hc.2.1 hc.2.2.1 hc.2.2.2 (by rw [wbLocals_eq, wbSize_eq, List.nil_append]) ?_
      rw [List.length_append] at hlt
      omega
    · show (a.funcs ++ [_]).length = (a.code ++ [_]).length
      rw [List.length_append, List.length_append, h.paired]
      rfl
  | exportFunc name funcIdx => exact h.exported hc.1 rfl hc.2
  | exportMem name => exact h.exported hc rfl (by decide)
  | exportGlobal name gi => exact h.exported hc.1 rfl hc.2
  | start funcIdx => exact { h with start := rfl, startIdx := hc }
  | data offset bytes =>
    refine { h with data := ?_ }
    simp only [Call.run, wmData, wbI_eq, wbSize_eq, List.append_assoc]
    refine h.data.add (by simp) fun hlt => reads_data offset ?_
    simp only [List.length_append] at hlt
    omega

end Represents

theorem represents_build {calls : List Call} (h : ∀ c ∈ calls, c.Ok isExpr) :
    Represents isExpr (build calls) (added calls) := by
  unfold build added
  generalize hm : wmInit = m
  generalize ha : (⟨[], [], [], [], [], [], none, [], []⟩ : Module) = a
  have hinit : Represents isExpr m a := by
    subst hm ha
    exact Represents.empty
  clear hm ha
  induction calls generalizing m a with
  | nil => exact hinit
  | cons c cs ih =>
    simp only [List.forall_mem_cons] at h
    exact ih h.2 _ _ (hinit.call h.1)

/-! ## The sections -/

/-- A section as it is written. -/
def sectionBytes (id : UInt8) (s : Bytes) : Bytes := [id] ++ (uleb (s.length % 2 ^ 64) ++ s)

theorem emitSection_eq (out : Bytes) (id : UInt8) (s : Bytes) :
    emitSection out id s = out ++ sectionBytes id s := by
  rw [emitSection, wbSize_eq, sectionBytes, List.append_assoc, List.append_assoc]

/-- The section, or nothing. -/
def optBytes (present : Bool) (id : UInt8) (s : Bytes) : Bytes :=
  if present then sectionBytes id s else []

theorem ite_emitSection (out : Bytes) (present : Bool) (id : UInt8) (s : Bytes) :
    (if present then emitSection out id s else out) = out ++ optBytes present id s := by
  cases present with
  | false => exact (List.append_nil out).symm
  | true => exact emitSection_eq out id s

/-- What a vector section has inside. -/
def vecBytes (count : Nat) (content : Bytes) : Bytes := wbSize [] count ++ content

theorem emitVecSection_eq (out : Bytes) (id : UInt8) (count : Nat) (content : Bytes) :
    emitVecSection out id count content =
      out ++ optBytes (decide (count ≠ 0)) id (vecBytes count content) := by
  unfold emitVecSection
  split
  · next h => simp [optBytes, h]
  · next h => simp [optBytes, h, emitSection_eq, vecBytes]

theorem wmFinish_eq (m : WasmModule) : wmFinish m = header ++
    (optBytes (decide (m.typeCount ≠ 0)) 1 (vecBytes m.typeCount m.types) ++
    (optBytes (decide (m.importCount ≠ 0)) 2 (vecBytes m.importCount m.imports) ++
    (optBytes (decide (m.funcCount ≠ 0)) 3 (vecBytes m.funcCount m.funcs) ++
    (optBytes m.hasMemory 5 (wbInt (wbSize [] 1 ++ [0x00]) m.memMin) ++
    (optBytes (decide (m.globalCount ≠ 0)) 6 (vecBytes m.globalCount m.globals) ++
    (optBytes (decide (m.exportCount ≠ 0)) 7 (vecBytes m.exportCount m.exports) ++
    (optBytes m.hasStart 8 (wbInt [] m.startIdx) ++
    (optBytes (decide (m.codeCount ≠ 0)) 10 (vecBytes m.codeCount m.code) ++
    optBytes (decide (m.dataCount ≠ 0)) 11 (vecBytes m.dataCount m.data))))))))) := by
  unfold wmFinish
  simp only [emitVecSection_eq, ite_emitSection, List.append_assoc]
  rfl

section

variable {α : Type} {r : Reader α} {id : UInt8} {missing x : α} {s : Bytes}

/-- A section that is present is read, one that is not is missing. -/
theorem isSection_opt {present : Bool} (hlt : (optBytes present id s).length < 2 ^ 32)
    (hread : present = true → s.length < 2 ^ 32 → Reads r s x)
    (hmissing : present = false → missing = x) :
    IsSection id r missing (optBytes present id s) x := by
  cases present with
  | false => exact hmissing rfl ▸ IsSection.absent
  | true =>
    have hs : s.length < 2 ^ 32 := by
      have hlen := hlt
      simp only [optBytes, if_true, sectionBytes, List.length_append] at hlen
      omega
    simp only [optBytes, if_true, sectionBytes]
    rw [mod_of_lt hs (Nat.le_refl _)]
    exact IsSection.present hs (hread rfl hs)

theorem isSection_vec {n : Nat} {bs : Bytes} {xs : List α} (h : Entries r 32 n bs xs)
    (hlt : (optBytes (decide (n ≠ 0)) id (vecBytes n bs)).length < 2 ^ 32) :
    IsSection id (Reader.vec 32 r) [] (optBytes (decide (n ≠ 0)) id (vecBytes n bs)) xs := by
  refine isSection_opt hlt (fun _ hs => ?_) fun hn => ?_
  · rw [vecBytes, wbSize_eq, List.nil_append, List.length_append] at *
    have hshort := h.short
    rw [mod_of_lt (n := n) hs (by omega)]
    exact h.vec (by omega)
  · have := h.count
    simp only [ne_eq, decide_not, Bool.not_eq_false', decide_eq_true_eq] at hn
    exact (List.eq_nil_of_length_eq_zero (by omega)).symm

end

/-- The bytes are the module that was added. -/
theorem decode_finish {m : WasmModule} {a : Module} (h : Represents isExpr m a)
    (hlt : (wmFinish m).length < 2 ^ 32) : decode isExpr (wmFinish m) = some a := by
  rw [wmFinish_eq] at hlt ⊢
  simp only [List.length_append] at hlt
  refine decode_sections isExpr (isSection_vec h.types (by omega))
    (isSection_vec h.imports (by omega)) (isSection_vec h.funcs (by omega))
    (isSection_opt (by omega) (fun hm _ => ?_) fun hm => ?_)
    (isSection_vec h.globals (by omega)) (isSection_vec h.exports (by omega))
    (isSection_opt (by omega) (fun hs _ => ?_) fun hs => ?_)
    (isSection_vec h.code (by omega)) (isSection_vec h.data (by omega)) h.paired
  · have hone : Reads memory ([0x00] ++ uleb m.memMin.toInt64.toUInt64.toNat) (index m.memMin) :=
      (Reads.exactly 0x00).bind (reads_index h.memMin)
    rw [h.memories, if_pos hm, wbInt_eq, wbSize_eq, List.nil_append, List.append_assoc]
    exact (Reads.unsigned (show 1 < 2 ^ 32 by decide)).bind (Reads.times_zero.times_snoc hone)
  · rw [h.memories, if_neg (by simp [hm])]
  · rw [h.start, if_pos hs, wbInt_eq, List.nil_append]
    exact (reads_index h.startIdx).map
  · rw [h.start, if_neg (by simp [hs])]

/-! ## The indices -/

/-- The function of a call is the next of the module, and its index the one returned. -/
theorem functions_step {m : WasmModule} {a : Module} (h : Represents isExpr m a) (c : Call)
    (hfirst : c.isImport = true → a.funcs = []) :
    (c.add a).functions.zipIdx = a.functions.zipIdx ++ (c.returned m).toList := by
  cases c with
  | importFunc field typeIdx =>
    have hfuncs := hfirst rfl
    have hf : a.functions = a.imports.map .imported := by
      rw [Module.functions, hfuncs]
      exact List.append_nil _
    have hf' : (Call.add a (.importFunc field typeIdx)).functions =
        a.functions ++ [.imported ⟨env, field, index typeIdx⟩] := by
      rw [hf]
      simp [Call.add, Module.functions, hfuncs]
    rw [hf', List.zipIdx_append, hf, List.length_map, ← h.imports.count]
    simp [Call.returned, wmImportFunc]
  | func typeIdx locals body =>
    have hf : (Call.add a (.func typeIdx locals body)).functions =
        a.functions ++ [.defined (index typeIdx) (codeOf locals body)] := by
      simp only [Call.add, Module.functions]
      rw [List.zipWith_append h.paired, List.append_assoc]
      rfl
    have hlen : a.functions.length = m.importCount + m.funcCount := by
      rw [Module.functions, List.length_append, List.length_map, List.length_zipWith, ← h.paired,
        Nat.min_self, h.imports.count, h.funcs.count]
    rw [hf, List.zipIdx_append, Nat.zero_add, hlen]
    rfl
  | type | memory | globalI32 | exportFunc | exportMem | exportGlobal | start | data =>
    exact (List.append_nil _).symm

theorem returned_eq {calls : List Call} (hok : ∀ c ∈ calls, c.Ok isExpr)
    (hfirst : ImportsFirst calls) : returned wmInit calls = (added calls).functions.zipIdx := by
  have hrun : ∀ cs m a, Represents isExpr m a → (∀ c ∈ cs, c.Ok isExpr) → ImportsFirst cs →
      (a.funcs ≠ [] → ∀ c ∈ cs, c.isImport = false) →
      (cs.foldl Call.add a).functions.zipIdx = a.functions.zipIdx ++ returned m cs := by
    intro cs
    induction cs with
    | nil => exact fun m a _ _ _ _ => (List.append_nil _).symm
    | cons c cs ih =>
      intro m a h hok hfirst hnone
      simp only [List.forall_mem_cons] at hok hnone
      obtain ⟨hc, hcs⟩ := List.pairwise_cons.mp hfirst
      have hstep := functions_step h c fun hi => by
        by_contra hne
        exact Bool.false_ne_true ((hnone hne).1.symm.trans hi)
      rw [List.foldl_cons, ih _ _ (h.call hok.1) hok.2 hcs ?_, hstep, List.append_assoc]
      · rfl
      · intro hne c' hc'
        cases hfunc : c.isFunc with
        | true => exact hc c' hc' hfunc
        | false =>
          have hsame : (c.add a).funcs = a.funcs := by
            cases c with
            | func => cases hfunc
            | _ => rfl
          rw [hsame] at hne
          exact (hnone hne).2 c' hc'
  exact (hrun calls wmInit _ Represents.empty hok hfirst (absurd rfl)).symm

/-- A module under 4 GiB, of arguments the format can hold, is read back. -/
theorem readBack_build (isExpr : Bytes → Bool) {calls : List Call}
    (hok : ∀ c ∈ calls, c.Ok isExpr) (hfirst : ImportsFirst calls)
    (hlt : (wmFinish (build calls)).length < 2 ^ 32) : ReadBack isExpr calls :=
  ⟨decode_finish (represents_build hok) hlt, returned_eq hok hfirst⟩

/-- An import, a function that is exported and started, a memory and a data segment. -/
def sampleCalls : List Call :=
  [.type [0x7f, 0x7f] [], .type [] [], .importFunc [0x70] 0, .memory 4, .exportMem [0x6d],
    .func 1 [(2, 0x7f)] [0x0b], .exportFunc [0x66] 1, .start 1, .globalI32 true (-300),
    .data 1024 [0x41, 0x0a]]

theorem readBack_sampleCalls : ReadBack (· == [0x0b]) sampleCalls :=
  readBack_build (· == [0x0b]) (by decide +kernel) (by decide +kernel) (by decide +kernel)

/-- A negative index, a name that is not UTF-8, a type that is none, a body that is no expression,
and too many locals are written, and are not read back. -/
theorem not_readBack_build :
    ImportsFirst [.start (-1)] ∧ ¬ ReadBack (· == [0x0b]) [.start (-1)] ∧
      ¬ ReadBack (· == [0x0b]) [.exportFunc [0xff] 0] ∧ ¬ ReadBack (· == [0x0b]) [.type [0x00] []] ∧
      ¬ ReadBack (· == [0x0b]) [.func 0 [] []] ∧
      ¬ ReadBack (· == [0x0b]) [.func 0 [(4294967295, 0x7f), (1, 0x7f)] [0x0b]] := by
  decide +kernel

end Arche.Codegen.WasmEncode
