import Mathlib.Data.Vector.Basic
import Mathlib.Order.Basic

/-!
# The generated pool

`codegen_archetype_decl` emits one struct per shape of static capacity `cap`,

    columns…, i64 count, [cap x i64] free_list, i64 free_count, [cap x i32] gen_counters

and the helpers `@arche_insert_P` and `@arche_delete_P` over it. This module is
the straight-line IR of the two helpers, block by block, and the state
`codegen_emit_alloc_init` leaves.

A `getelementptr` into `free_list` is not checked: index `cap` is the word
behind the array, `free_count` itself, and index `-1` the word before it,
`count`. Any other index outside the array leaves these three fields, and the
model says `none`.

Slots, counts and indices are `i64` values that stay far from overflow and are
`Int` here; generations are `i32` with bit 31 as the dead flag and are
`BitVec 32`; a handle is the `i64` word `slot | gen << 32`.
-/

namespace Arche.Codegen

/-- The fields of `%struct.P`. `rows` stands for the columns, one entry a slot. -/
structure Pool (ρ : Type) (cap : Nat) where
  rows : Vector ρ cap
  count : Int
  freeList : Vector Int cap
  freeCount : Int
  genCounters : Vector (BitVec 32) cap

/-- `codegen_emit_alloc_init` on the zero-initialised global: `count` is the
declared live-count, `free_count` is `1` (cell `0` of the stack is never used). -/
def allocInit {ρ : Type} (cap : Nat) (zero : ρ) (length : Int) : Pool ρ cap where
  rows := Vector.replicate cap zero
  count := length
  freeList := Vector.replicate cap 0
  freeCount := 1
  genCounters := Vector.replicate cap 0#32

variable {ρ : Type} {cap : Nat}

/-- `load i64` through `getelementptr … free_list, i64 i`. -/
def Pool.loadFree (p : Pool ρ cap) (i : Int) : Option Int :=
  if i = cap then some p.freeCount
  else if i = -1 then some p.count
  else if 0 ≤ i then p.freeList[i.toNat]?
  else none

/-- `store i64` through the same pointer. -/
def Pool.storeFree (p : Pool ρ cap) (i v : Int) : Option (Pool ρ cap) :=
  if i = cap then some { p with freeCount := v }
  else if i = -1 then some { p with count := v }
  else if 0 ≤ i ∧ i < cap then some { p with freeList := p.freeList.setIfInBounds i.toNat v }
  else none

/-- `load i32` of `gen_counters[slot]`. -/
def Pool.gen (p : Pool ρ cap) (slot : Int) : Option (BitVec 32) :=
  if 0 ≤ slot then p.genCounters[slot.toNat]? else none

/-- `store i32` to `gen_counters[slot]`. -/
def Pool.setGen (p : Pool ρ cap) (slot : Int) (g : BitVec 32) : Pool ρ cap :=
  { p with genCounters := p.genCounters.setIfInBounds slot.toNat g }

/-- The column stores of block `write_fields`. -/
def Pool.writeFields (p : Pool ρ cap) (slot : Int) (row : ρ) : Option (Pool ρ cap) :=
  if 0 ≤ slot ∧ slot < cap then some { p with rows := p.rows.setIfInBounds slot.toNat row }
  else none

/-- Bit 31 of a generation: the slot was freed and not reused. -/
def dead (g : BitVec 32) : Bool := g.msb

/-- `%handle = or i64 %slot_i64, %gen_shifted`. -/
def packHandle (slot : Int) (g : BitVec 32) : BitVec 64 :=
  (BitVec.ofInt 32 slot).setWidth 64 ||| (g.setWidth 64 <<< 32)

/-- `zext i32 (trunc i64 %handle to i32) to i64`. -/
def handleSlot (h : BitVec 64) : Int := ((h.setWidth 32).toNat : Int)

/-- `trunc i64 (lshr i64 %handle, 32) to i32`. -/
def handleGen (h : BitVec 64) : BitVec 32 := (h >>> 32).setWidth 32

/-- What one call leaves behind. `freeIdx` lists the `free_list` indices the call
read or wrote, in order; `slot` is the row an insert wrote or a delete freed. -/
structure Outcome (ρ : Type) (cap : Nat) where
  pool : Pool ρ cap
  handle : BitVec 64
  ok : Bool
  slot : Option Int
  evict : Bool
  freeIdx : List Int
  aborted : Bool

/-- The slot an insert decides on: blocks `entry`, `pop_free`, `check_capacity`,
`overflow`, `do_evict` and `use_count`. -/
structure Choice (ρ : Type) (cap : Nat) where
  pool : Pool ρ cap
  slot : Int
  doIncr : Bool
  isEvict : Bool
  freeIdx : List Int

/-- How block `entry` branches. `none` is a wild `free_list` load, `some none` is
block `really_full`. -/
def chooseSlot (p : Pool ρ cap) (evictSlot : Int) : Option (Option (Choice ρ cap)) :=
  if p.freeCount > 1 then
    -- pop_free: the slot is read before the new free_count is stored
    let newFc := p.freeCount - 1
    match p.loadFree newFc with
    | none => none
    | some slot => some (some ⟨{ p with freeCount := newFc }, slot, false, false, [newFc]⟩)
  else if p.count ≥ cap then
    if evictSlot ≥ 0 then some (some ⟨p, evictSlot, false, true, []⟩)
    else some none
  else some (some ⟨p, p.count, true, false, []⟩)

/-- Blocks `evict_bump` and `gen_load`: the generation the new row gets. -/
def nextGen (g : BitVec 32) (wasEvict : Bool) : BitVec 32 :=
  let genDead := if wasEvict then g + 1#32 else g
  let genRaw := genDead &&& 2147483647#32
  if genRaw = 0#32 then 1#32 else genRaw

/-- `@arche_insert_P`. -/
def archeInsert (p : Pool ρ cap) (row : ρ) (evictSlot : Int) : Option (Outcome ρ cap) :=
  match chooseSlot p evictSlot with
  | none => none
  | some none => some ⟨p, 0#64, false, none, false, [], false⟩
  | some (some c) =>
    match c.pool.writeFields c.slot row with
    | none => none
    | some p1 =>
      let p2 := if c.doIncr then { p1 with count := p1.count + 1 } else p1
      match p2.gen c.slot with
      | none => none
      | some g =>
        let g' := nextGen g c.isEvict
        some ⟨p2.setGen c.slot g', packHandle c.slot g', true, some c.slot, c.isEvict,
          c.freeIdx, false⟩

/-- `@arche_delete_P`. A stale handle aborts the process, an exhausted generation
reports `ok = 0`. -/
def archeDelete (p : Pool ρ cap) (handle : BitVec 64) : Option (Outcome ρ cap) :=
  let slot := handleSlot handle
  match p.gen slot with
  | none => none
  | some storedGen =>
    if handleGen handle ≠ storedGen then some ⟨p, handle, false, none, false, [], true⟩
    else if storedGen = 2147483647#32 then some ⟨p, handle, false, none, false, [], false⟩
    else
      let p1 := p.setGen slot ((storedGen + 1#32) ||| 2147483648#32)
      let freeCount := p1.freeCount
      match p1.storeFree freeCount slot with
      | none => none
      | some p2 =>
        some ⟨{ p2 with freeCount := freeCount + 1 }, handle, true, some slot, false,
          [freeCount], false⟩

/-- A call of one of the two helpers. -/
inductive Op (ρ : Type) where
  | insert (row : ρ) (evictSlot : Int)
  | delete (handle : BitVec 64)

def exec (p : Pool ρ cap) : Op ρ → Option (Outcome ρ cap)
  | .insert row evictSlot => archeInsert p row evictSlot
  | .delete handle => archeDelete p handle

end Arche.Codegen
