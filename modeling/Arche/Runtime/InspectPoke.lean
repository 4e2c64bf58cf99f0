import Arche.Runtime.InspectRegistry
import Arche.Runtime.InspectRows

/-!
# `POKE`

`arche_inspect_handle` on a line `POKE pool slot gen field sub hex` writes one cell of a pool.

* Memory gives a byte for every address; `0` is `NULL`. A pool is found through its registration.
* `Holds`: the bookkeeping of a pool in memory is that of a pool of the generated program.
* `Confined` is what a reply may say: an error and nothing written, or `OK` and the bytes of the
  line in the cell that it names, of a live row.

1. `poke_cell`: an accepted request writes inside the storage of a field that is no handle.
2. `pokes_live`: where no deleted slot gets lost, or the line names the generation of a live row,
   the row that is written is live.
3. `not_confined`: after a sort the row that is freed next takes a `POKE`.
-/

namespace Arche.Runtime.Inspect

open Arche.Lib Arche.Codegen

/-! ## Memory -/

abbrev Mem := Int → BitVec 8

/-- `n` bytes, the lowest first. -/
def readLE (m : Mem) (a : Int) : Nat → Nat
  | 0 => 0
  | n + 1 => (m a).toNat + 256 * readLE m (a + 1) n

/-- `read_i64`. -/
def readI64 (m : Mem) (a : Int) : Int := (BitVec.ofNat 64 (readLE m a 8)).toInt

def readI32 (m : Mem) (a : Int) : BitVec 32 := BitVec.ofNat 32 (readLE m a 4)

def readPtr (m : Mem) (a : Int) : Int := readLE m a 8

/-- `memcpy(a, bytes, n)`. -/
def writeBytes (m : Mem) (a : Int) (bytes : List (BitVec 8)) : Mem := fun x =>
  if a ≤ x then bytes[(x - a).toNat]?.getD (m x) else m x

section Access

variable (m : Mem) (p : InspectPool)

/-- `pool_struct_base`. -/
def poolStructBase : Int := if p.isDynamic then readPtr m p.base else p.base

def poolCountVal (sb : Int) : Int := readI64 m (sb + p.countOff)

def poolFreeCount (sb : Int) : Int := readI64 m (sb + p.freeCountOff)

def poolCapacity (sb : Int) : Int :=
  if p.isDynamic then readI64 m (sb + p.capOff) else p.capacity

def poolFreeList (sb : Int) : Int :=
  if p.isDynamic then readPtr m (sb + p.freeListOff) else sb + p.freeListOff

def poolGen (sb : Int) : Int :=
  if p.isDynamic then readPtr m (sb + p.genOff) else sb + p.genOff

/-- The loop of `slot_is_free`, with `rounds` entries left. -/
def freeEntry (fl slot : Int) : Nat → Int → Bool
  | 0, _ => false
  | rounds + 1, i =>
    if readI64 m (fl + 8 * i) = slot then true else freeEntry fl slot rounds (i + 1)

/-- `slot_is_free`. -/
def slotIsFree (sb slot : Int) : Bool :=
  let fl := poolFreeList m p sb
  if fl = 0 then false else freeEntry m fl slot (poolFreeCount m p sb - 1).toNat 1

/-- `cell_addr`. -/
def cellAddr (sb : Int) (f : InspectField) (slot sub : Int) : Int :=
  let flat := slot * f.elemCount + sub
  if p.isDynamic then
    let col := readPtr m (sb + f.byteOffset)
    if col = 0 then 0 else col + flat * f.elemSize
  else sb + f.byteOffset + flat * f.elemSize

end Access

/-! ## Requests -/

def isSpace (c : Char) : Bool :=
  c == ' ' || c == '\t' || c == '\n' || c == '\x0b' || c == '\x0c' || c == '\r'

/-- `%ns`. -/
def scanStr (n : Nat) (s : Text) : Option (Text × Text) :=
  let t := s.dropWhile isSpace
  let w := (t.takeWhile fun c => !isSpace c).take n
  if w = [] then none else some (w, t.drop w.length)

/-- The number that a `long` keeps. -/
def clampLong (v : Int) : Int := max (-(2 ^ 63)) (min v (2 ^ 63 - 1))

def digitsValue (ds : Text) : Nat := ds.foldl (fun v c => 10 * v + (c.toNat - '0'.toNat)) 0

/-- `%ld`. -/
def scanLong (s : Text) : Option (Int × Text) :=
  let t := s.dropWhile isSpace
  let u := if t.head? = some '-' ∨ t.head? = some '+' then t.tail else t
  let ds := u.takeWhile Char.isDigit
  if ds = [] then none
  else
    let v : Int := digitsValue ds
    some (clampLong (if t.head? = some '-' then -v else v), u.drop ds.length)

structure PokeRequest where
  pool : Text
  slot : Int
  gen : Int
  field : Int
  sub : Int
  hex : Text
deriving DecidableEq

/-- `sscanf(line, "%31s", verb)`. -/
def verb (line : Text) : Option Text := (scanStr 31 line).map (·.1)

/-- `sscanf(line, "%31s %255s %ld %ld %ld %ld %2047s", …)`. -/
def parsePoke (line : Text) : Option PokeRequest := do
  let (_, s) ← scanStr 31 line
  let (pool, s) ← scanStr 255 s
  let (slot, s) ← scanLong s
  let (gen, s) ← scanLong s
  let (field, s) ← scanLong s
  let (sub, s) ← scanLong s
  let (hex, _) ← scanStr 2047 s
  pure ⟨pool, slot, gen, field, sub, hex⟩

def hexNibble (c : Char) : Option Nat :=
  if '0' ≤ c ∧ c ≤ '9' then some (c.toNat - '0'.toNat)
  else if 'a' ≤ c ∧ c ≤ 'f' then some (c.toNat - 'a'.toNat + 10)
  else if 'A' ≤ c ∧ c ≤ 'F' then some (c.toNat - 'A'.toNat + 10)
  else none

/-- The loop that decodes the payload, two digits a byte. -/
def decodeHex : Text → Option (List (BitVec 8))
  | hi :: lo :: rest => do
    let h ← hexNibble hi
    let l ← hexNibble lo
    let bytes ← decodeHex rest
    pure (BitVec.ofNat 8 (16 * h + l) :: bytes)
  | _ => some []

inductive PokeError
  | empty | unknownVerb | usage | noPool | notAllocated | badField | readonlyField | subOob | width
  | hex | slotOob | deadSlot | staleGen | noCell
deriving DecidableEq

/-- `served` is a request that only reads. -/
inductive Reply
  | ok
  | err (reason : PokeError)
  | served
deriving DecidableEq

section Handle

variable (pools : List InspectPool) (m : Mem)

/-- `find_pool`. -/
def findPool (name : Text) : Option InspectPool := pools.find? fun p => p.name == name

/-- The address of a cell after the checks of its row. -/
def rowCell (p : InspectPool) (sb : Int) (f : InspectField) (r : PokeRequest) :
    Except PokeError Int :=
  let cap := poolCapacity m p sb
  let count := poolCountVal m p sb
  if r.slot < 0 ∨ r.slot ≥ cap ∨ r.slot ≥ count then .error .slotOob
  else if slotIsFree m p sb r.slot then .error .deadSlot
  else
    let gen := poolGen m p sb
    if gen ≠ 0 ∧ (readI32 m (gen + 4 * r.slot)).toInt ≠ r.gen then .error .staleGen
    else .ok (cellAddr m p sb f r.slot r.sub)

/-- What `POKE` is to write, and where. -/
def pokeCell (line : Text) : Except PokeError (Int × List (BitVec 8)) := do
  let some r := parsePoke line | throw .usage
  let some p := findPool pools r.pool | throw .noPool
  let sb := poolStructBase m p
  if sb = 0 then throw .notAllocated
  if r.field < 0 ∨ r.field ≥ p.fields.length then throw .badField
  let some f := p.fields[r.field.toNat]? | throw .badField
  if f.typeTag = .handle ∨ f.typeTag = .opaqueRef then throw .readonlyField
  if r.sub < 0 ∨ r.sub ≥ f.elemCount then throw .subOob
  let hlen : Int := r.hex.length
  if hlen % 2 ≠ 0 ∨ hlen / 2 ≠ f.elemSize then throw .width
  if f.elemSize > 16 then throw .width
  let some bytes := decodeHex r.hex | throw .hex
  let dst ←
    match f.kind with
    | .column => rowCell m p sb f r
    | .perPool => pure (sb + f.byteOffset + r.sub * f.elemSize)
  if dst = 0 then throw .noCell
  pure (dst, bytes)

/-- `arche_inspect_handle`. -/
def archeInspectHandle (line : Text) : Reply × Mem :=
  match verb line with
  | none => (.err .empty, m)
  | some v =>
    if v = "LIST".toList ∨ v = "SCHEMA".toList ∨ v = "ROWS".toList then (.served, m)
    else if v = "POKE".toList then
      match pokeCell pools m line with
      | .error reason => (.err reason, m)
      | .ok (dst, bytes) => (.ok, writeBytes m dst bytes)
    else (.err .unknownVerb, m)

end Handle

/-! ## What a `POKE` may write -/

/-- Where the elements of a field are. -/
def storage (m : Mem) (p : InspectPool) (f : InspectField) : Int :=
  let sb := poolStructBase m p
  if f.kind = .column ∧ p.isDynamic then readPtr m (sb + f.byteOffset) else sb + f.byteOffset

/-- How many elements it has. -/
def elements (m : Mem) (p : InspectPool) (f : InspectField) : Int :=
  match f.kind with
  | .column => poolCapacity m p (poolStructBase m p) * f.elemCount
  | .perPool => f.elemCount

/-- The element that a request names. -/
def PokeRequest.element (r : PokeRequest) (f : InspectField) : Int :=
  match f.kind with
  | .column => r.slot * f.elemCount + r.sub
  | .perPool => r.sub

/-- The row that a request names is live and of its generation. -/
structure LiveRow (m : Mem) (p : InspectPool) (r : PokeRequest) : Prop where
  below : 0 ≤ r.slot ∧ r.slot < poolCountVal m p (poolStructBase m p)
  alive : dead (readI32 m (poolGen m p (poolStructBase m p) + 4 * r.slot)) = false
  gen : (readI32 m (poolGen m p (poolStructBase m p) + 4 * r.slot)).toInt = r.gen

/-- `bytes` at `dst` are the payload of `r` at the element that it names. -/
structure Poked (pools : List InspectPool) (m : Mem) (r : PokeRequest) (p : InspectPool)
    (f : InspectField) (dst : Int) (bytes : List (BitVec 8)) : Prop where
  pool : findPool pools r.pool = some p
  field : 0 ≤ r.field ∧ p.fields[r.field.toNat]? = some f
  writable : f.typeTag ≠ .handle ∧ f.typeTag ≠ .opaqueRef
  sub : 0 ≤ r.sub ∧ r.sub < f.elemCount
  payload : decodeHex r.hex = some bytes ∧ r.hex.length = 2 * bytes.length
  width : bytes.length = f.elemSize
  place : dst = storage m p f + r.element f * f.elemSize
  inside : 0 ≤ r.element f ∧ r.element f < elements m p f

/-- An error and nothing written, or the bytes of the request in the cell that it names. -/
def Confined (pools : List InspectPool) (m : Mem) (line : Text) : Prop :=
  (∃ reason, archeInspectHandle pools m line = (.err reason, m)) ∨
    ∃ r p f dst bytes, parsePoke line = some r ∧ Poked pools m r p f dst bytes ∧
      (f.kind = .column → LiveRow m p r) ∧
      archeInspectHandle pools m line = (.ok, writeBytes m dst bytes)

/-- The bookkeeping of a pool in memory. -/
structure Holds {S : Shape} {cap : Nat} (m : Mem) (p : InspectPool) (pool : Pool S.Row cap) :
    Prop where
  capacity : poolCapacity m p (poolStructBase m p) = cap
  count : poolCountVal m p (poolStructBase m p) = pool.count
  freeCount : poolFreeCount m p (poolStructBase m p) = pool.freeCount
  freeBase : poolFreeList m p (poolStructBase m p) ≠ 0
  freeList : ∀ i (h : i < cap),
    readI64 m (poolFreeList m p (poolStructBase m p) + 8 * i) = pool.freeList[i]
  genBase : poolGen m p (poolStructBase m p) ≠ 0
  gens : ∀ i (h : i < cap),
    readI32 m (poolGen m p (poolStructBase m p) + 4 * i) = pool.genCounters[i]

/-- A pool of the program after calls that meet `C`. -/
def InUse (C : ∀ (S : Shape) (cap : Nat), Sys S.Row cap → PoolCall S → Prop) (m : Mem)
    (p : InspectPool) : Prop :=
  ∃ (S : Shape) (cap : Nat) (zero : S.Row) (length : Int) (calls : List (PoolCall S))
    (s : Sys S.Row cap), 1 ≤ cap ∧ cap < 2 ^ 31 ∧ 0 ≤ length ∧ length ≤ cap ∧
      Run (Guarded Sys.CallStep (C S cap)) (Sys.start cap zero length) calls s ∧ Holds m p s.pool

/-- A dynamic pool may not be there yet. -/
def Known (C : ∀ (S : Shape) (cap : Nat), Sys S.Row cap → PoolCall S → Prop) (m : Mem)
    (p : InspectPool) : Prop :=
  poolStructBase m p = 0 ∨ InUse C m p

/-- The request names the generation of a live row. -/
def NamesLiveGen (line : Text) : Prop := ∀ r, parsePoke line = some r → 0 ≤ r.gen

/-! ## Accepted requests -/

theorem length_decodeHex (s : Text) (bytes : List (BitVec 8)) (h : decodeHex s = some bytes) :
    bytes.length = s.length / 2 := by
  fun_induction decodeHex s generalizing bytes with
  | case1 hi lo rest ih =>
    simp only [Option.bind_eq_bind, Option.bind_eq_some_iff, Option.pure_def,
      Option.some.injEq] at h
    obtain ⟨a, -, b, -, tail, htail, rfl⟩ := h
    rw [List.length_cons, ih tail htail, List.length_cons, List.length_cons]
    omega
  | case2 s hshort =>
    cases h
    cases s with
    | nil => rfl
    | cons c s =>
      cases s with
      | nil => simp
      | cons d s => exact absurd rfl (hshort c d s)

/-- What the checks of a row leave. -/
theorem rowCell_ok {m : Mem} {p : InspectPool} {sb : Int} {f : InspectField} {r : PokeRequest}
    {dst : Int} (h : rowCell m p sb f r = .ok dst) :
    0 ≤ r.slot ∧ r.slot < poolCapacity m p sb ∧ r.slot < poolCountVal m p sb ∧
      slotIsFree m p sb r.slot = false ∧
      (poolGen m p sb ≠ 0 → (readI32 m (poolGen m p sb + 4 * r.slot)).toInt = r.gen) ∧
      dst = cellAddr m p sb f r.slot r.sub := by
  unfold rowCell at h
  dsimp only at h
  split at h
  · cases h
  next hslot =>
  split at h
  · cases h
  next hfree =>
  split at h
  · cases h
  next hgen =>
  cases h
  refine ⟨by omega, by omega, by omega, Bool.eq_false_iff.mpr hfree, fun hbase => ?_, rfl⟩
  by_contra hne
  exact hgen ⟨hbase, hne⟩

theorem place_eq {m : Mem} {p : InspectPool} {f : InspectField} {slot sub : Int}
    (hkind : f.kind = .column) (h : cellAddr m p (poolStructBase m p) f slot sub ≠ 0) :
    cellAddr m p (poolStructBase m p) f slot sub =
      storage m p f + (slot * f.elemCount + sub) * f.elemSize := by
  unfold cellAddr at h ⊢
  unfold storage
  dsimp only at h ⊢
  split
  · next hdyn =>
    rw [if_pos hdyn] at h
    split
    · next hnull => rw [if_pos hnull] at h; exact absurd rfl h
    · rw [if_pos ⟨hkind, hdyn⟩]
  · next hdyn => rw [if_neg fun hc => hdyn hc.2]

/-- An accepted request writes its bytes inside the storage of a field that is no handle. -/
theorem poke_cell {pools : List InspectPool} {m : Mem} {line : Text} {dst : Int}
    {bytes : List (BitVec 8)} (h : pokeCell pools m line = .ok (dst, bytes)) :
    ∃ r p f, parsePoke line = some r ∧ Poked pools m r p f dst bytes ∧ poolStructBase m p ≠ 0 ∧
      (f.kind = .column → ∃ cell, rowCell m p (poolStructBase m p) f r = .ok cell) := by
  unfold pokeCell at h
  simp only [bind, Except.bind, throw, throwThe, MonadExceptOf.throw, pure, Except.pure] at h
  split at h
  case h_2 => cases h
  next r hr =>
  split at h
  case h_2 => cases h
  next p hp =>
  split at h
  · cases h
  next hsb =>
  split at h
  · cases h
  next hfield =>
  split at h
  case h_2 => cases h
  next f hf =>
  split at h
  · cases h
  next hreadonly =>
  split at h
  · cases h
  next hsub =>
  split at h
  · cases h
  next hwidth =>
  split at h
  · cases h
  split at h
  case h_2 => cases h
  next payload hpayload =>
  have hlen := length_decodeHex r.hex payload hpayload
  have hfields : 0 ≤ r.field ∧ p.fields[r.field.toNat]? = some f := ⟨by omega, hf⟩
  have hwritable : f.typeTag ≠ .handle ∧ f.typeTag ≠ .opaqueRef := not_or.mp hreadonly
  have hpart : 0 ≤ r.sub ∧ r.sub < f.elemCount := by omega
  have hbytes : r.hex.length = 2 * payload.length := by omega
  have hsize : (payload.length : Int) = f.elemSize := by omega
  split at h
  · next hkind =>
    split at h
    · cases h
    next cell hcell =>
    split at h
    · cases h
    next hnull =>
    cases h
    obtain ⟨hslot, hcap, -, -, -, hdst⟩ := rowCell_ok hcell
    have hplace := place_eq hkind (hdst ▸ hnull)
    refine ⟨r, p, f, hr, ⟨hp, hfields, hwritable, hpart, ⟨hpayload, hbytes⟩, hsize, ?_, ?_⟩, hsb,
      fun _ => ⟨_, hcell⟩⟩
    · rw [hdst, hplace, PokeRequest.element, hkind]
    · have hrow : 0 ≤ r.slot * f.elemCount := Int.mul_nonneg hslot (by omega)
      have hnext : (r.slot + 1) * f.elemCount ≤
          poolCapacity m p (poolStructBase m p) * f.elemCount :=
        Int.mul_le_mul_of_nonneg_right (by omega) (by omega)
      rw [Int.add_mul, Int.one_mul] at hnext
      rw [PokeRequest.element, elements, hkind]
      dsimp only
      omega
  · next hkind =>
    split at h
    · cases h
    cases h
    refine ⟨r, p, f, hr, ⟨hp, hfields, hwritable, hpart, ⟨hpayload, hbytes⟩, hsize, ?_, ?_⟩, hsb,
      fun hcol => absurd (hkind.symm.trans hcol) (by decide)⟩
    · have hno : ¬ (f.kind = .column ∧ p.isDynamic = true) := fun hc =>
        absurd (hkind.symm.trans hc.1) (by decide)
      rw [storage, PokeRequest.element, hkind]
      dsimp only
      rw [if_neg (by rintro ⟨hc, -⟩; cases hc)]
    · rw [PokeRequest.element, elements, hkind]
      exact hpart

/-! ## Live rows -/

theorem freeEntry_eq {S : Shape} {cap : Nat} {m : Mem} {fl : Int} {pool : Pool S.Row cap}
    (hlist : ∀ i (h : i < cap), readI64 m (fl + 8 * i) = pool.freeList[i]) (slot : Int)
    {n i : Nat} (hcap : i + n ≤ cap) :
    InspectRows.freeLoop pool slot n i = some (freeEntry m fl slot n i) := by
  induction n generalizing i with
  | zero => rfl
  | succ n ih =>
    have hi : i < cap := by omega
    have hload : pool.loadFree i = some pool.freeList[i] := by
      rw [Pool.loadFree, if_neg (by omega), if_neg (by omega), if_pos (Int.natCast_nonneg i),
        Int.toNat_natCast, Vector.getElem?_eq_getElem hi]
    have hrest := ih (i := i + 1) (by omega)
    push_cast at hrest
    rw [InspectRows.freeLoop, hload, freeEntry, hlist i hi]
    dsimp only
    rw [hrest]
    split <;> rfl

/-- The bookkeeping in memory is that of the pool. -/
theorem slotIsFree_holds {S : Shape} {cap : Nat} {m : Mem} {p : InspectPool} {pool : Pool S.Row cap}
    (h : Holds m p pool) (hcap : 1 ≤ cap) (hfree : pool.freeCount ≤ cap) (slot : Int) :
    InspectRows.slotIsFree pool slot = some (slotIsFree m p (poolStructBase m p) slot) := by
  have hloop := freeEntry_eq h.freeList slot (n := (pool.freeCount - 1).toNat) (i := 1) (by omega)
  rw [InspectRows.slotIsFree, slotIsFree, h.freeCount, if_neg h.freeBase]
  exact hloop

theorem gen_holds {S : Shape} {cap : Nat} {m : Mem} {p : InspectPool} {pool : Pool S.Row cap}
    (h : Holds m p pool) {slot : Int} (h0 : 0 ≤ slot) (h1 : slot < cap) :
    pool.gen slot = some (readI32 m (poolGen m p (poolStructBase m p) + 4 * slot)) := by
  have hlt : slot.toNat < cap := by omega
  have hgen := h.gens slot.toNat hlt
  rw [Int.toNat_of_nonneg h0] at hgen
  rw [Pool.gen, if_pos h0, Vector.getElem?_eq_getElem hlt, hgen]

/-- In a pool that keeps its free slots the inspector sees the dead bits. -/
theorem alive_of_reclaimed {m : Mem} {p : InspectPool} {slot : Int}
    (huse : InUse (fun _ _ => Sys.Reclaimed) m p) (h0 : 0 ≤ slot)
    (h1 : slot < poolCapacity m p (poolStructBase m p))
    (h2 : slot < poolCountVal m p (poolStructBase m p))
    (hfree : slotIsFree m p (poolStructBase m p) slot = false) :
    dead (readI32 m (poolGen m p (poolStructBase m p) + 4 * slot)) = false := by
  obtain ⟨S, cap, zero, length, calls, s, hcap, hword, hlen0, hlen1, hrun, hholds⟩ := huse
  have hk : Kept s := WriteLemmas.run_kept hcap hword hlen0 hlen1 (fun _ _ h => h) hrun
  have hle : s.pool.freeCount ≤ cap := by
    have hnorm : s.pool.norm.freeCount =
      if s.pool.freeCount = 0 then 1 else s.pool.freeCount := rfl
    have hgood := hk.good.free_le
    dsimp only at hgood
    split at hnorm <;> omega
  rw [hholds.capacity] at h1
  rw [hholds.count] at h2
  have hslot : ((slot.toNat : Nat) : Int) = slot := Int.toNat_of_nonneg h0
  have hlisted := slotIsFree_holds hholds hcap hle slot
  have hbit : InspectRows.slotIsFree s.pool slot.toNat = some (s.pool.deadRow slot.toNat) :=
    InspectRows.slotIsFree_kept hk hcap (by omega)
  rw [hslot, hlisted, hfree] at hbit
  have hdead : s.pool.deadRow slot.toNat = false := (Option.some.inj hbit).symm
  rw [Pool.deadRow, hslot, gen_holds hholds h0 h1] at hdead
  exact hdead

theorem genBase_inUse {C : ∀ (S : Shape) (cap : Nat), Sys S.Row cap → PoolCall S → Prop} {m : Mem}
    {p : InspectPool} (huse : InUse C m p) : poolGen m p (poolStructBase m p) ≠ 0 := by
  obtain ⟨S, cap, zero, length, calls, s, hcap, hword, hlen0, hlen1, hrun, hholds⟩ := huse
  exact hholds.genBase

/-- A generation with the dead bit is negative. -/
theorem dead_of_toInt {g : BitVec 32} (h : 0 ≤ g.toInt) : dead g = false := by
  rw [dead, BitVec.msb_eq_toInt]
  exact decide_eq_false (by omega)

/-- A `POKE` is confined where no deleted slot gets lost, or the request names the generation of a
live row. -/
theorem pokes_live {pools : List InspectPool} {m : Mem} {line : Text}
    (hverb : verb line = some "POKE".toList) (huse : ∀ p ∈ pools, Known (fun _ _ _ _ => True) m p)
    (hlive : (∀ p ∈ pools, Known (fun _ _ => Sys.Reclaimed) m p) ∨ NamesLiveGen line) :
    Confined pools m line := by
  have hhandle : archeInspectHandle pools m line =
      match pokeCell pools m line with
      | .error reason => (.err reason, m)
      | .ok (dst, bytes) => (.ok, writeBytes m dst bytes) := by
    rw [archeInspectHandle, hverb]
    rfl
  cases hcell : pokeCell pools m line with
  | error reason =>
    refine .inl ⟨reason, ?_⟩
    rw [hhandle, hcell]
  | ok cell =>
    obtain ⟨dst, bytes⟩ := cell
    obtain ⟨r, p, f, hr, hpoked, hbase, hrow⟩ := poke_cell hcell
    refine .inr ⟨r, p, f, dst, bytes, hr, hpoked, fun hcol => ?_, by rw [hhandle, hcell]⟩
    obtain ⟨addr, haddr⟩ := hrow hcol
    obtain ⟨h0, hcap, hcount, hfree, hgen, -⟩ := rowCell_ok haddr
    have hmem : p ∈ pools := List.mem_of_find?_eq_some hpoked.pool
    have hnamed := hgen (genBase_inUse ((huse p hmem).resolve_left hbase))
    refine ⟨⟨h0, hcount⟩, ?_, hnamed⟩
    rcases hlive with hreclaimed | hnames
    · exact alive_of_reclaimed ((hreclaimed p hmem).resolve_left hbase) h0 hcap hcount hfree
    · exact dead_of_toInt (hnamed ▸ hnames r hr)

/-! ## A row that is freed after a sort -/

/-- `struct { char x[2]; i64 count; i64 free_list[2]; i64 free_count; i32 gen[2]; }` at `4096`. -/
def bytePool : InspectPool where
  name := "B".toList
  base := 4096
  isDynamic := false
  capacity := 2
  fields := [⟨"x".toList, .char, .column, 0, 1, 1⟩]
  countOff := 8
  freeListOff := 16
  freeCountOff := 32
  genOff := 40
  capOff := -1

/-- The memory of `bytePool` with one row below `count`. -/
def memoryOf (freeCount : BitVec 8) (gen : List (BitVec 8)) : Mem :=
  writeBytes (fun _ => 0) 4096
    ([0, 0, 0, 0, 0, 0, 0, 0] ++ [1, 0, 0, 0, 0, 0, 0, 0] ++ List.replicate 16 0 ++
      [freeCount, 0, 0, 0, 0, 0, 0, 0] ++ gen ++ [0, 0, 0, 0])

/-- A row that was inserted takes the byte of its generation. -/
theorem pokes_live_bytePool :
    Confined [bytePool] (memoryOf 1 [1, 0, 0, 0]) "POKE B 0 1 0 0 41".toList := by
  have hrun : ∃ s : Sys InspectRows.cells.Row 2,
      Run (Guarded Sys.CallStep fun _ _ => True) (Sys.start 2 (fun _ => Vector.replicate _ 0) 0)
        ([] ++ [.insert (WriteLemmas.zeroArgs InspectRows.cells) (-1)]) s ∧
        Holds (memoryOf 1 [1, 0, 0, 0]) bytePool s.pool :=
    ⟨_, Run.snoc Run.nil ⟨⟨.inl rfl, _, rfl, rfl⟩, trivial⟩,
      ⟨by decide, by decide, by decide, by decide, by decide, by decide, by decide⟩⟩
  obtain ⟨s, hrun, hholds⟩ := hrun
  have huse : InUse (fun _ _ _ _ => True) (memoryOf 1 [1, 0, 0, 0]) bytePool :=
    ⟨_, 2, _, 0, _, s, by decide, by decide, by decide, by decide, hrun, hholds⟩
  refine pokes_live (by decide) (fun p hp => .inr (List.mem_singleton.mp hp ▸ huse)) (.inr ?_)
  intro r hr
  have hline : parsePoke "POKE B 0 1 0 0 41".toList =
      some ⟨"B".toList, 0, 1, 0, 0, "41".toList⟩ := by decide
  rw [hline] at hr
  cases hr
  decide

/-- `sortedCalls` leaves the row that was inserted dead. -/
theorem inUse_sorted : InUse (fun _ _ _ _ => True) (memoryOf 1 [2, 0, 0, 128]) bytePool := by
  have hrun : ∃ s : Sys InspectRows.cells.Row 2,
      Run (Guarded Sys.CallStep fun _ _ => True) (Sys.start 2 (fun _ => Vector.replicate _ 0) 0)
        InspectRows.sortedCalls s ∧ Holds (memoryOf 1 [2, 0, 0, 128]) bytePool s.pool :=
    ⟨_, Run.snoc (Run.snoc (Run.snoc Run.nil ⟨⟨_, rfl, rfl⟩, trivial⟩)
      ⟨⟨.inl rfl, _, rfl, rfl⟩, trivial⟩) ⟨⟨by decide, _, rfl, rfl, rfl⟩, trivial⟩,
      ⟨by decide, by decide, by decide, by decide, by decide, by decide, by decide⟩⟩
  obtain ⟨s, hrun, hholds⟩ := hrun
  exact ⟨_, 2, _, 0, _, s, by decide, by decide, by decide, by decide, hrun, hholds⟩

theorem not_confined :
    ¬ ∀ (pools : List InspectPool) (m : Mem) (line : Text), verb line = some "POKE".toList →
      (∀ p ∈ pools, Known (fun _ _ _ _ => True) m p) → Confined pools m line := by
  intro h
  have hwrong := h [bytePool] (memoryOf 1 [2, 0, 0, 128]) "POKE B 0 -2147483646 0 0 41".toList
    (by decide) fun p hp => .inr (List.mem_singleton.mp hp ▸ inUse_sorted)
  have hreply : (archeInspectHandle [bytePool] (memoryOf 1 [2, 0, 0, 128])
      "POKE B 0 -2147483646 0 0 41".toList).1 = .ok := by decide
  have hline : parsePoke "POKE B 0 -2147483646 0 0 41".toList =
      some ⟨"B".toList, 0, -2147483646, 0, 0, "41".toList⟩ := by decide
  rcases hwrong with ⟨reason, herr⟩ | ⟨r, p, f, dst, bytes, hr, hpoked, hrow, -⟩
  · rw [herr] at hreply
    cases hreply
  · rw [hline] at hr
    cases hr
    have hpool : findPool [bytePool] "B".toList = some bytePool := rfl
    cases hpoked.pool.symm.trans hpool
    have hfield := hpoked.field.2
    cases hfield
    have halive := (hrow rfl).alive
    revert halive
    decide

end Arche.Runtime.Inspect
