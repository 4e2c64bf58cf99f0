import Arche.Codegen.PoolSort
import Mathlib.Data.List.FinRange

/-!
# The columns of a new row

`@arche_insert_P` takes one argument a column and block `write_fields` stores them, column after
column, at the slot that the blocks before it have chosen. A column of several `i8` takes a pointer:
its elements are cleared and then copied from there up to a NUL, one element less than there are.
Every other column takes a value, which goes to the first of its elements.

* A pointer may point into a column of the pool. What it points to is read while the row is written.
* A `store` is an element that the program assigns.

1. `writeColumns_row`: the row that is written, of arguments that are not read from it.
2. `fresh_rows_iff`: new rows depend on their arguments alone exactly if the shape's columns of
   several elements are texts.
3. `not_fresh_rows`: the second element of an `int` column of two is that of the row before.
-/

namespace Arche.Codegen

open Arche.Lib

variable {S : Shape} {cap : Nat}

/-! ## Arguments -/

/-- The column has several elements, of type `i8`. -/
def Column.isText (c : Column) : Bool := 1 < c.perRow && c.type.bits == 8

/-- A pointer: out of the pool, or at an element of one of its columns. -/
inductive Source (S : Shape)
  | outside (mem : Nat → BitVec 8)
  | column (c : Fin S.ncol) (offset : Nat)

/-- One argument a column, a pointer for texts and else a value. -/
structure Args (S : Shape) where
  value : (c : Fin S.ncol) → S.Elem c
  source : Fin S.ncol → Source S

namespace Pool

variable (p : Pool S.Row cap)

/-- `load i8` of `%csp`. -/
def loadText : Source S → Nat → BitVec 8
  | .outside mem, j => mem j
  | .column c offset, j => (p.slices (offset + j) c).setWidth 8

/-- A store to element `j` of row `slot`. -/
def storeElem (slot : Nat) (c : Fin S.ncol) (j : Nat) (v : S.Elem c) : Pool S.Row cap :=
  match p.rows[slot]? with
  | some row =>
    { p with
      rows := p.rows.setIfInBounds slot (Function.update row c ((row c).setIfInBounds j v)) }
  | none => p

/-- `llvm.memset` of the elements of row `slot`. -/
def clearElems (slot : Nat) (c : Fin S.ncol) : Pool S.Row cap :=
  match p.rows[slot]? with
  | some row =>
    { p with
      rows := p.rows.setIfInBounds slot (Function.update row c (Vector.replicate _ 0)) }
  | none => p

/-- Blocks `cpcond`, `cpld` and `cpbody`, from element `j` on. -/
def copyLoop (slot : Nat) (c : Fin S.ncol) (src : Source S) :
    Nat → Nat → Pool S.Row cap → Pool S.Row cap
  | 0, _, p => p
  | rounds + 1, j, p =>
    let ch := p.loadText src j
    if ch = 0 then p
    else copyLoop slot c src rounds (j + 1) (p.storeElem slot c j (ch.setWidth _))

/-- The stores for one column. -/
def writeColumn (slot : Nat) (args : Args S) (p : Pool S.Row cap) (c : Fin S.ncol) :
    Pool S.Row cap :=
  if (S.col c).isText then
    copyLoop slot c (args.source c) ((S.col c).perRow - 1) 0 (p.clearElems slot c)
  else p.storeElem slot c 0 (args.value c)

/-- Block `write_fields`. -/
def writeColumns (slot : Nat) (args : Args S) : Pool S.Row cap :=
  (List.finRange S.ncol).foldl (writeColumn slot args) p

end Pool

/-- `@arche_insert_P` with its arguments. A slot out of the pool is a store out of the columns. -/
def archeInsertArgs (p : Pool S.Row cap) (args : Args S) (evictSlot : Int) :
    Option (Outcome S.Row cap) :=
  match chooseSlot p evictSlot with
  | none => none
  | some none => some ⟨p, 0#64, false, none, false, [], false⟩
  | some (some c) =>
    if 0 ≤ c.slot ∧ c.slot < cap then
      let p1 := c.pool.writeColumns c.slot.toNat args
      let p2 := if c.doIncr then { p1 with count := p1.count + 1 } else p1
      match p2.gen c.slot with
      | none => none
      | some g =>
        let g' := nextGen g c.isEvict
        some ⟨p2.setGen c.slot g', packHandle c.slot g', true, some c.slot, c.isEvict,
          c.freeIdx, false⟩
    else none

/-! ## What a row is to be -/

/-- The values of the arguments: a text is what stands at its pointer. -/
structure Given (S : Shape) where
  value : (c : Fin S.ncol) → S.Elem c
  text : Fin S.ncol → List (BitVec 8)

/-- The bytes up to a NUL, `n` at most. -/
def textFrom (read : Nat → BitVec 8) (j n : Nat) : List (BitVec 8) :=
  ((List.range' j n).map read).takeWhile (· ≠ 0)

/-- The values of arguments when the call starts. -/
def Args.given (args : Args S) (p : Pool S.Row cap) : Given S where
  value := args.value
  text := fun c => textFrom (p.loadText (args.source c)) 0 ((S.col c).perRow - 1)

/-- A text with zeros behind it. -/
def paddedText (c : Fin S.ncol) (text : List (BitVec 8)) : Vector (S.Elem c) (S.col c).perRow :=
  Vector.ofFn fun k => match text[k.val]? with
    | some ch => ch.setWidth _
    | none => 0

/-- The row that values are to make of an old one. -/
def writtenRow (g : Given S) (old : S.Row) : S.Row := fun c =>
  if (S.col c).isText then paddedText c (g.text c) else (old c).setIfInBounds 0 (g.value c)

/-- Every column of several elements is a text. -/
def Shape.TextArrays (S : Shape) : Prop := ∀ c, (S.col c).perRow ≤ 1 ∨ (S.col c).isText = true

instance (S : Shape) : Decidable S.TextArrays :=
  inferInstanceAs (Decidable (∀ c, (S.col c).perRow ≤ 1 ∨ (S.col c).isText = true))

/-- The bytes that the copy from `src` reads, `n` at most, are in their column and not of row
`slot`. -/
def Apart (p : Pool S.Row cap) (slot : Nat) (n : Nat) : Source S → Prop
  | .outside _ => True
  | .column c offset => ∀ j < n,
    (∀ i < j, p.loadText (.column c offset) i ≠ 0) →
      offset + j < cap * (S.col c).perRow ∧ (offset + j) / (S.col c).perRow ≠ slot

/-- No text is read from the row that is written. -/
def Args.Apart (args : Args S) (p : Pool S.Row cap) (slot : Nat) : Prop :=
  ∀ c, (S.col c).isText = true →
    Codegen.Apart p slot ((S.col c).perRow - 1) (args.source c)

namespace WriteLemmas

variable {p : Pool S.Row cap} {slot : Nat}

/-! ## One row -/

/-- The pool with another row at `slot`. -/
def setRow (p : Pool S.Row cap) (slot : Nat) (row : S.Row) : Pool S.Row cap :=
  { p with rows := p.rows.setIfInBounds slot row }

theorem rows_setRow (hslot : slot < cap) (row : S.Row) :
    (setRow p slot row).rows[slot]? = some row := by
  simp [setRow, hslot]

theorem rows_setRow_other {i : Nat} (h : i ≠ slot) (row : S.Row) :
    (setRow p slot row).rows[i]? = p.rows[i]? := by
  simp [setRow, Ne.symm h]

theorem setRow_setRow (row row' : S.Row) : setRow (setRow p slot row) slot row' = setRow p slot row' := by
  unfold setRow
  congr 1
  ext i hi
  by_cases h : slot = i <;> simp [h]

theorem setRow_self {row : S.Row} (h : p.rows[slot]? = some row) : setRow p slot row = p := by
  obtain ⟨hlt, rfl⟩ := Vector.getElem?_eq_some_iff.mp h
  unfold setRow
  congr 1
  ext i hi
  by_cases h : slot = i <;> simp [h]

theorem storeElem_setRow (hslot : slot < cap) (row : S.Row) (c : Fin S.ncol) (j : Nat)
    (v : S.Elem c) : (setRow p slot row).storeElem slot c j v =
      setRow p slot (Function.update row c ((row c).setIfInBounds j v)) := by
  unfold Pool.storeElem
  rw [rows_setRow hslot]
  exact setRow_setRow row _

theorem clearElems_setRow (hslot : slot < cap) (row : S.Row) (c : Fin S.ncol) :
    (setRow p slot row).clearElems slot c =
      setRow p slot (Function.update row c (Vector.replicate _ 0)) := by
  unfold Pool.clearElems
  rw [rows_setRow hslot]
  exact setRow_setRow row _

/-- What is read apart from the row is there whatever the row has become. -/
theorem loadText_setRow (src : Source S) {j n : Nat} (hj : j < n) (hapart : Apart p slot n src)
    (hread : ∀ i < j, p.loadText src i ≠ 0) (row : S.Row) :
    (setRow p slot row).loadText src j = p.loadText src j := by
  cases src with
  | outside mem => rfl
  | column c offset =>
    have hne := (hapart j hj hread).2
    have hslices : (setRow p slot row).slices (offset + j) c = p.slices (offset + j) c := by
      unfold Pool.slices
      rw [rows_setRow_other hne]
    exact congrArg (BitVec.setWidth 8) hslices

/-! ## One column -/

/-- The elements of a column after the copy from element `j` on. -/
def copied (c : Fin S.ncol) (j : Nat) (text : List (BitVec 8))
    (old : Vector (S.Elem c) (S.col c).perRow) : Vector (S.Elem c) (S.col c).perRow :=
  Vector.ofFn fun k =>
    if j ≤ k then
      match text[k.val - j]? with
      | some ch => ch.setWidth _
      | none => old[k]
    else old[k]

theorem copied_nil (c : Fin S.ncol) (j : Nat) (old : Vector (S.Elem c) (S.col c).perRow) :
    copied c j [] old = old := by
  refine Vector.ext fun k hk => ?_
  simp [copied]

theorem copied_cons (c : Fin S.ncol) {j : Nat} (hj : j < (S.col c).perRow) (ch : BitVec 8)
    (text : List (BitVec 8)) (old : Vector (S.Elem c) (S.col c).perRow) :
    copied c (j + 1) text (old.setIfInBounds j (ch.setWidth _)) = copied c j (ch :: text) old := by
  refine Vector.ext fun k hk => ?_
  simp only [copied, Vector.getElem_ofFn]
  rcases Nat.lt_trichotomy k j with hlt | rfl | hgt
  · rw [if_neg (by omega), if_neg (by omega)]
    simp [show j ≠ k by omega]
  · rw [if_neg (by omega), if_pos (Nat.le_refl _), Nat.sub_self]
    simp
  · rw [if_pos (by omega), if_pos (by omega), show k - j = (k - (j + 1)) + 1 by omega,
      List.getElem?_cons_succ]
    simp [show j ≠ k by omega]

theorem textFrom_succ (read : Nat → BitVec 8) (j n : Nat) :
    textFrom read j (n + 1) = if read j = 0 then [] else read j :: textFrom read (j + 1) n := by
  unfold textFrom
  rw [List.range'_succ, List.map_cons, List.takeWhile_cons]
  by_cases h : read j = 0 <;> simp [h]

/-- The copy of a text that is read apart from the row. -/
theorem copyLoop_setRow (hslot : slot < cap) {c : Fin S.ncol} {src : Source S} {n : Nat}
    (hapart : Apart p slot n src) {rounds j : Nat} (hn : j + rounds = n)
    (hwidth : n ≤ (S.col c).perRow) (hread : ∀ i < j, p.loadText src i ≠ 0) (row : S.Row) :
    Pool.copyLoop slot c src rounds j (setRow p slot row) = setRow p slot
      (Function.update row c (copied c j (textFrom (p.loadText src) j rounds) (row c))) := by
  induction rounds generalizing j row with
  | zero =>
    rw [Pool.copyLoop, textFrom, List.range'_zero, List.map_nil, List.takeWhile_nil, copied_nil,
      Function.update_eq_self]
  | succ rounds ih =>
    have hload := loadText_setRow src (show j < n by omega) hapart hread row
    rw [Pool.copyLoop, hload, textFrom_succ]
    by_cases hnul : p.loadText src j = 0
    · rw [if_pos hnul, if_pos hnul, copied_nil, Function.update_eq_self]
    · have hread' : ∀ i < j + 1, p.loadText src i ≠ 0 := by
        intro i hi
        rcases Nat.lt_succ_iff_lt_or_eq.1 hi with hlt | rfl
        · exact hread i hlt
        · exact hnul
      rw [if_neg hnul, if_neg hnul, storeElem_setRow hslot, ih (by omega) hread',
        Function.update_idem, Function.update_self, copied_cons c (by omega)]

/-- A copy changes its column only. -/
theorem copyLoop_exists (hslot : slot < cap) (c : Fin S.ncol) (src : Source S) (rounds j : Nat)
    (row : S.Row) : ∃ v, Pool.copyLoop slot c src rounds j (setRow p slot row) =
      setRow p slot (Function.update row c v) := by
  induction rounds generalizing j row with
  | zero => exact ⟨row c, by rw [Pool.copyLoop, Function.update_eq_self]⟩
  | succ rounds ih =>
    rw [Pool.copyLoop]
    split
    · exact ⟨row c, by rw [Function.update_eq_self]⟩
    · rw [storeElem_setRow hslot]
      obtain ⟨v, hv⟩ := ih (j + 1) (Function.update row c ((row c).setIfInBounds j _))
      exact ⟨v, by rw [hv, Function.update_idem]⟩

/-- A column that is no text gets its value. -/
theorem writeColumn_exists (hslot : slot < cap) (args : Args S) (row : S.Row) (c : Fin S.ncol) :
    ∃ v, (setRow p slot row).writeColumn slot args c = setRow p slot (Function.update row c v) ∧
      ((S.col c).isText = false → v = (row c).setIfInBounds 0 (args.value c)) := by
  unfold Pool.writeColumn
  split
  · next htext =>
    rw [clearElems_setRow hslot]
    obtain ⟨v, hv⟩ := copyLoop_exists (p := p) hslot c (args.source c) ((S.col c).perRow - 1) 0
      (Function.update row c (Vector.replicate _ 0))
    exact ⟨v, by rw [hv, Function.update_idem], fun h => absurd htext (by simp [h])⟩
  · exact ⟨_, storeElem_setRow hslot row c 0 _, fun _ => rfl⟩

/-- One column of arguments that are read apart from the row. -/
theorem writeColumn_setRow (hslot : slot < cap) {args : Args S} (hapart : args.Apart p slot)
    (row : S.Row) (c : Fin S.ncol) : (setRow p slot row).writeColumn slot args c =
      setRow p slot (Function.update row c (writtenRow (args.given p) row c)) := by
  unfold Pool.writeColumn writtenRow
  split
  · next htext =>
    have hone : 1 < (S.col c).perRow := by
      simp only [Column.isText, Bool.and_eq_true, decide_eq_true_eq] at htext
      exact htext.1
    rw [clearElems_setRow hslot, copyLoop_setRow hslot (hapart c htext) (Nat.zero_add _)
      (Nat.sub_le _ _) (fun i hi => absurd hi (Nat.not_lt_zero i)), Function.update_idem,
      Function.update_self]
    congr 2
    refine Vector.ext fun k hk => ?_
    simp [copied, paddedText, Args.given]
  · rw [storeElem_setRow hslot]
    rfl

/-! ## All columns -/

theorem writeColumns_exists (hslot : slot < cap) (args : Args S) :
    ∃ row, p.writeColumns slot args = setRow p slot row ∧
      ∀ c, (S.col c).isText = false → row c = (p.rows[slot] c).setIfInBounds 0 (args.value c) := by
  have hfold : ∀ (cs : List (Fin S.ncol)), cs.Nodup → ∀ row : S.Row,
      ∃ row', cs.foldl (Pool.writeColumn slot args) (setRow p slot row) = setRow p slot row' ∧
        (∀ c, c ∉ cs → row' c = row c) ∧
        ∀ c ∈ cs, (S.col c).isText = false → row' c = (row c).setIfInBounds 0 (args.value c) := by
    intro cs
    induction cs with
    | nil => exact fun _ row => ⟨row, rfl, fun _ _ => rfl, nofun⟩
    | cons c cs ih =>
      intro hnodup row
      obtain ⟨hc, hnodup⟩ := List.nodup_cons.1 hnodup
      obtain ⟨v, hwrite, hv⟩ := writeColumn_exists (p := p) hslot args row c
      obtain ⟨row', hrow', hrest, hcs⟩ := ih hnodup (Function.update row c v)
      refine ⟨row', by rw [List.foldl_cons, hwrite, hrow'], fun d hd => ?_, fun d hd htext => ?_⟩
      · have hdc : d ≠ c := by
          rintro rfl
          exact hd List.mem_cons_self
        rw [hrest d fun h => hd (List.mem_cons_of_mem c h), Function.update_of_ne hdc]
      · by_cases hdc : d = c
        · subst hdc
          rw [hrest d hc, Function.update_self, hv htext]
        · rw [hcs d ((List.mem_cons.1 hd).resolve_left hdc) htext, Function.update_of_ne hdc]
  have hself : p.rows[slot]? = some p.rows[slot] := Vector.getElem?_eq_getElem hslot
  obtain ⟨row, hrow, -, hcs⟩ := hfold (List.finRange S.ncol) (List.nodup_finRange _) p.rows[slot]
  rw [setRow_self hself] at hrow
  exact ⟨row, hrow, fun c => hcs c (List.mem_finRange c)⟩

end WriteLemmas

open WriteLemmas

/-- The row that arguments write that are read apart from it. -/
theorem writeColumns_row {p : Pool S.Row cap} {slot : Nat} {args : Args S} {old : S.Row}
    (hold : p.rows[slot]? = some old) (hapart : args.Apart p slot) :
    p.writeColumns slot args = setRow p slot (writtenRow (args.given p) old) := by
  have hslot : slot < cap := (Vector.getElem?_eq_some_iff.mp hold).1
  -- The columns that come later are those of the old row.
  have hfold : ∀ (cs : List (Fin S.ncol)), cs.Nodup → ∀ row : S.Row, (∀ c ∈ cs, row c = old c) →
      cs.foldl (Pool.writeColumn slot args) (setRow p slot row) =
        setRow p slot fun c => if c ∈ cs then writtenRow (args.given p) old c else row c := by
    intro cs
    induction cs with
    | nil =>
      intro _ row _
      simp
    | cons c cs ih =>
      intro hnodup row hrow
      obtain ⟨hc, hnodup⟩ := List.nodup_cons.1 hnodup
      have hsame : writtenRow (args.given p) row c = writtenRow (args.given p) old c := by
        unfold writtenRow
        rw [hrow c List.mem_cons_self]
      rw [List.foldl_cons, writeColumn_setRow hslot hapart, hsame, ih hnodup]
      · congr 1
        funext d
        by_cases hd : d = c
        · subst hd
          simp [hc]
        · simp [hd]
      · intro d hd
        have hne : d ≠ c := by
          rintro rfl
          exact hc hd
        rw [Function.update_of_ne hne]
        exact hrow d (List.mem_cons_of_mem c hd)
  have h := hfold (List.finRange S.ncol) (List.nodup_finRange _) old fun _ _ => rfl
  rw [setRow_self hold] at h
  rw [Pool.writeColumns, h]
  congr 1
  funext c
  rw [if_pos (List.mem_finRange c)]

/-! ## Runs -/

/-- The calls on a pool of a program, and its assignments to elements. -/
inductive PoolCall (S : Shape)
  | insert (args : Args S) (evictSlot : Int)
  | delete (handle : BitVec 64)
  | sort (key : Fin S.ncol) (descending : Bool)
  | store (slot : Nat) (c : Fin S.ncol) (j : Nat) (v : S.Elem c)

/-- A victim is `-1` or a slot. -/
def EvictSlot (cap : Nat) (evictSlot : Int) : Prop :=
  evictSlot = -1 ∨ (0 ≤ evictSlot ∧ evictSlot < cap)

/-- One call that returns. A delete gets a handle that an earlier insert returned. -/
def Sys.CallStep (s : Sys S.Row cap) : PoolCall S → Sys S.Row cap → Prop
  | .insert args evictSlot, t => EvictSlot cap evictSlot ∧
    ∃ o, archeInsertArgs s.pool args evictSlot = some o ∧ t = ⟨o.pool, o.handle :: s.issued⟩
  | .delete handle, t => handle ∈ s.issued ∧
    ∃ o, archeDelete s.pool handle = some o ∧ o.aborted = false ∧ t = ⟨o.pool, s.issued⟩
  | .sort key descending, t =>
    ∃ q, emitSort s.pool key descending = some q ∧ t = ⟨q, s.issued⟩
  | .store slot c j v, t => t = ⟨s.pool.storeElem slot c j v, s.issued⟩

/-- The slot that an insert takes. -/
def Pool.takenSlot (p : Pool S.Row cap) (evictSlot : Int) : Option Nat :=
  match chooseSlot p evictSlot with
  | some (some c) => some c.slot.toNat
  | _ => none

/-- A delete that frees a row frees one below `count` to a cell that an insert looks at. -/
def Sys.Reclaimed (s : Sys S.Row cap) : PoolCall S → Prop
  | .delete handle => Reclaims s (.delete handle)
  | .insert _ _ | .sort _ _ | .store _ _ _ _ => True

/-- And no text of an insert is read from the row it takes. -/
def Sys.Careful (s : Sys S.Row cap) : PoolCall S → Prop
  | .insert args evictSlot =>
    ∀ slot, s.pool.takenSlot evictSlot = some slot → args.Apart s.pool slot
  | call => s.Reclaimed call

/-- In every run of calls that meet `C` an insert returns. One that succeeds leaves at its slot a row
that depends on the values of its arguments only, and every other row as it was. -/
def FreshRows (S : Shape) (cap : Nat) (C : Sys S.Row cap → PoolCall S → Prop) : Prop :=
  ∃ F : Given S → S.Row, ∀ (zero : S.Row) (length : Int), 0 ≤ length → length ≤ cap →
    ∀ (calls : List (PoolCall S)) (s : Sys S.Row cap),
      Run (Guarded Sys.CallStep C) (Sys.start cap zero length) calls s →
      ∀ args evictSlot, EvictSlot cap evictSlot → C s (.insert args evictSlot) →
        ∃ o, archeInsertArgs s.pool args evictSlot = some o ∧ (o.ok = true →
          ∃ slot : Nat, o.slot = some (slot : Int) ∧
            o.pool.rows[slot]? = some (F (args.given s.pool)) ∧
            ∀ i, i ≠ slot → o.pool.rows[i]? = s.pool.rows[i]?)

namespace WriteLemmas

variable {p : Pool S.Row cap}

theorem chooseSlot_rows {ev : Int} {c : Choice S.Row cap} (h : chooseSlot p ev = some (some c)) :
    c.pool.rows = p.rows := by
  unfold chooseSlot at h
  split at h
  · dsimp only at h
    split at h
    · cases h
    · cases h
      rfl
  · split at h
    · split at h
      · cases h
        rfl
      · cases h
    · cases h
      rfl

/-- An insert with its arguments is the insert of the row that they write. -/
theorem archeInsertArgs_eq (p : Pool S.Row cap) (args : Args S) (ev : Int) :
    ∃ row, archeInsertArgs p args ev = archeInsert p row ev ∧
      ∀ c, chooseSlot p ev = some (some c) → 0 ≤ c.slot ∧ c.slot < cap →
        c.pool.writeColumns c.slot.toNat args = setRow c.pool c.slot.toNat row := by
  unfold archeInsertArgs archeInsert
  cases hc : chooseSlot p ev with
  | none => exact ⟨fun c => Vector.replicate _ 0, rfl, nofun⟩
  | some r =>
    cases r with
    | none => exact ⟨fun c => Vector.replicate _ 0, rfl, nofun⟩
    | some c =>
      by_cases hbound : 0 ≤ c.slot ∧ c.slot < cap
      · obtain ⟨row, hrow, -⟩ := writeColumns_exists (p := c.pool)
          (show c.slot.toNat < cap by omega) args
        refine ⟨row, ?_, ?_⟩
        · dsimp only
          rw [if_pos hbound, hrow, Pool.writeFields, if_pos hbound]
          rfl
        · rintro d ⟨⟩ _
          exact hrow
      · refine ⟨fun c => Vector.replicate _ 0, ?_, ?_⟩
        · dsimp only
          rw [if_neg hbound, Pool.writeFields, if_neg hbound]
        · rintro d ⟨⟩ hd
          exact absurd hd hbound

/-- What an insert does to the rows. -/
theorem insertArgs_rows {args : Args S} {ev : Int} {o : Outcome S.Row cap}
    (h : archeInsertArgs p args ev = some o) :
    (chooseSlot p ev = some none ∧ o.ok = false ∧ o.slot = none ∧ o.pool = p) ∨
      ∃ c, chooseSlot p ev = some (some c) ∧ (0 ≤ c.slot ∧ c.slot < cap) ∧ o.ok = true ∧
        o.slot = some c.slot ∧ o.pool.rows = (c.pool.writeColumns c.slot.toNat args).rows := by
  unfold archeInsertArgs at h
  split at h
  · cases h
  · next hfull =>
    cases h
    exact .inl ⟨hfull, rfl, rfl, rfl⟩
  · next c hc =>
    split at h
    · next hbound =>
      dsimp only at h
      split at h
      · cases h
      · cases h
        refine .inr ⟨c, hc, hbound, rfl, rfl, ?_⟩
        show (if c.doIncr then _ else _ : Pool S.Row cap).rows = _
        split <;> rfl
    · cases h

theorem slices_congr {q : Pool S.Row cap} (h : q.rows = p.rows) : q.slices = p.slices := by
  unfold Pool.slices
  rw [h]

theorem loadText_congr {q : Pool S.Row cap} (h : q.rows = p.rows) (src : Source S) :
    q.loadText src = p.loadText src := by
  cases src with
  | outside mem => rfl
  | column c offset =>
    funext j
    exact congrArg (BitVec.setWidth 8) (congrFun (congrFun (slices_congr h) _) c)

theorem given_congr {q : Pool S.Row cap} (h : q.rows = p.rows) (args : Args S) :
    args.given q = args.given p := by
  unfold Args.given
  congr 1
  funext c
  rw [loadText_congr h]

theorem apart_congr {q : Pool S.Row cap} (h : q.rows = p.rows) {args : Args S} {slot : Nat}
    (hapart : args.Apart p slot) : args.Apart q slot := by
  intro c hc
  have hcol := hapart c hc
  cases hsrc : args.source c with
  | outside mem => trivial
  | column d offset =>
    rw [hsrc] at hcol
    intro j hj hread
    rw [loadText_congr h] at hread
    exact hcol j hj hread

/-- A successful insert of arguments that are read apart from its row. -/
theorem insertArgs_fresh {args : Args S} {ev : Int} {o : Outcome S.Row cap}
    (h : archeInsertArgs p args ev = some o) (hok : o.ok = true)
    (hapart : ∀ slot, p.takenSlot ev = some slot → args.Apart p slot) :
    ∃ (slot : Nat) (old : S.Row), o.slot = some (slot : Int) ∧ p.rows[slot]? = some old ∧
      o.pool.rows[slot]? = some (writtenRow (args.given p) old) ∧
      ∀ i, i ≠ slot → o.pool.rows[i]? = p.rows[i]? := by
  rcases insertArgs_rows h with ⟨-, hfail, -⟩ | ⟨c, hc, hbound, -, hslot, hrows⟩
  · rw [hok] at hfail
    cases hfail
  · have hlt : c.slot.toNat < cap := by omega
    have hsame := chooseSlot_rows hc
    have hold : c.pool.rows[c.slot.toNat]? = some p.rows[c.slot.toNat] := by
      rw [hsame, Vector.getElem?_eq_getElem hlt]
    have htaken := hapart c.slot.toNat (by rw [Pool.takenSlot, hc])
    rw [writeColumns_row hold (apart_congr hsame htaken), given_congr hsame] at hrows
    refine ⟨c.slot.toNat, p.rows[c.slot.toNat], ?_, Vector.getElem?_eq_getElem hlt, ?_, ?_⟩
    · rw [hslot, Int.toNat_of_nonneg hbound.1]
    · rw [hrows, rows_setRow hlt]
    · intro i hi
      rw [hrows, rows_setRow_other hi, hsame]

/-- Where a successful insert puts its values, and that it leaves the other rows. -/
theorem insertArgs_values {args : Args S} {ev : Int} {c : Choice S.Row cap} {o : Outcome S.Row cap}
    (hc : chooseSlot p ev = some (some c)) (hbound : 0 ≤ c.slot ∧ c.slot < cap)
    (hrows : o.pool.rows = (c.pool.writeColumns c.slot.toNat args).rows) :
    (∀ d, (S.col d).perRow = 1 → o.pool.slices c.slot.toNat d = args.value d) ∧
      ∀ i, i ≠ c.slot.toNat → o.pool.rows[i]? = p.rows[i]? := by
  have hlt : c.slot.toNat < cap := by omega
  obtain ⟨row, hrow, hvalue⟩ := writeColumns_exists (p := c.pool) hlt args
  rw [hrow] at hrows
  refine ⟨fun d hd => ?_, fun i hi => ?_⟩
  · have htext : (S.col d).isText = false := by simp [Column.isText, hd]
    have hat : o.pool.rows[c.slot.toNat]? = some row := by rw [hrows, rows_setRow hlt]
    rw [PoolSortLemmas.slices_scalar hd hat, rowKey, hvalue d htext]
    simp [hd]
  · rw [hrows, rows_setRow_other hi, chooseSlot_rows hc]

/-- With texts for arrays the old row does not matter. -/
theorem writtenRow_fresh (hS : S.TextArrays) (g : Given S) (old old' : S.Row) :
    writtenRow g old = writtenRow g old' := by
  funext c
  unfold writtenRow
  split
  · rfl
  · next htext =>
    have hone : (S.col c).perRow ≤ 1 := (hS c).resolve_right htext
    refine Vector.ext fun k hk => ?_
    obtain rfl : k = 0 := by omega
    simp

/-! ## The invariant of a run -/

theorem kept_store {s : Sys S.Row cap} (hk : Kept s) (slot : Nat) (c : Fin S.ncol) (j : Nat)
    (v : S.Elem c) : Kept (⟨s.pool.storeElem slot c j v, s.issued⟩ : Sys S.Row cap) := by
  unfold Pool.storeElem
  split
  · exact ⟨⟨⟨hk.good.rep.count_nonneg, hk.good.rep.count_le, hk.good.rep.free_pos,
      hk.good.rep.distinct, hk.good.rep.exactly⟩, hk.good.free_le, hk.good.fresh,
      fun _ hmem => absurd hmem List.not_mem_nil⟩, hk.handles⟩
  · exact hk

theorem kept_call {s t : Sys S.Row cap} {call : PoolCall S} (hk : Kept s) (hcap : 1 ≤ cap)
    (hword : cap < 2 ^ 31) (hstep : s.CallStep call t) (hr : s.Reclaimed call) : Kept t := by
  cases call with
  | insert args ev =>
    obtain ⟨hev, o, ho, rfl⟩ := hstep
    obtain ⟨row, hrow, -⟩ := archeInsertArgs_eq s.pool args ev
    obtain ⟨o', ho', hkept⟩ := CapacityLemmas.insert_kept hk hcap hword row hev
    rw [hrow, ho'] at ho
    cases ho
    exact hkept
  | delete handle =>
    obtain ⟨hissued, o, ho, -, rfl⟩ := hstep
    exact CapacityLemmas.delete_kept hk hissued hr ho
  | sort key descending =>
    obtain ⟨q, hq, rfl⟩ := hstep
    obtain ⟨r, -, rfl⟩ := Option.map_eq_some_iff.mp hq
    exact CapacityLemmas.sort_kept hk hcap _
  | store slot c j v =>
    cases hstep
    exact kept_store hk slot c j v

theorem reclaimed_of_careful {s : Sys S.Row cap} {call : PoolCall S} (h : s.Careful call) :
    s.Reclaimed call := by
  cases call with
  | insert args ev => trivial
  | _ => exact h

theorem run_kept (hcap : 1 ≤ cap) (hword : cap < 2 ^ 31) {zero : S.Row} {length : Int}
    (h0 : 0 ≤ length) (h1 : length ≤ cap) {C : Sys S.Row cap → PoolCall S → Prop}
    (hC : ∀ s call, C s call → s.Reclaimed call) {calls : List (PoolCall S)} {s : Sys S.Row cap}
    (hrun : Run (Guarded Sys.CallStep C) (Sys.start cap zero length) calls s) : Kept s := by
  refine hrun.inv Kept (CapacityLemmas.kept_start hcap zero h0 h1) ?_
  rintro a call b ha ⟨hstep, hr⟩
  exact kept_call ha hcap hword hstep (hC a call hr)

/-- The arguments that are `0` and the empty text. -/
def zeroArgs (S : Shape) : Args S := ⟨fun _ => 0, fun _ => .outside fun _ => 0⟩

theorem given_zeroArgs (p : Pool S.Row cap) :
    (zeroArgs S).given p = ⟨fun _ => 0, fun _ => []⟩ := by
  unfold Args.given
  congr 1
  funext c
  cases (S.col c).perRow - 1 with
  | zero => rfl
  | succ n => rw [textFrom_succ]; rfl

theorem zeroArgs_apart (p : Pool S.Row cap) (slot : Nat) : (zeroArgs S).Apart p slot :=
  fun _ _ => trivial

theorem bits_pos (t : ElemType) : 0 < t.bits := by
  cases t with
  | int w _ => cases w <;> exact Nat.succ_pos _
  | _ => exact Nat.succ_pos _

/-- In an empty pool an insert takes the first slot. -/
theorem chooseSlot_empty (hcap : 1 ≤ cap) (hcount : p.count = 0) (hfree : p.freeCount = 1) :
    chooseSlot p (-1) = some (some ⟨p, 0, true, false, []⟩) := by
  rw [chooseSlot, if_neg (by omega), if_neg (by omega), hcount]

/-- If new rows depend on their arguments only, a column of several elements is a text: what is
stored to its second element before the insert is there after it. -/
theorem textArrays_of_fresh (hcap : 1 ≤ cap) {C : Sys S.Row cap → PoolCall S → Prop}
    (hstore : ∀ s slot c j v, C s (.store slot c j v)) (hins : ∀ s, C s (.insert (zeroArgs S) (-1)))
    (h : FreshRows S cap C) : S.TextArrays := by
  obtain ⟨F, hF⟩ := h
  intro c
  refine or_iff_not_imp_right.2 fun htext => ?_
  by_contra hwide
  let zero : S.Row := fun _ => Vector.replicate _ 0
  let start : Sys S.Row cap := Sys.start cap zero 0
  have hold : ∀ v : S.Elem c, ((F ⟨fun _ => 0, fun _ => []⟩) c)[1] = v := by
    intro v
    let row : S.Row := Function.update zero c ((zero c).setIfInBounds 1 v)
    let s : Sys S.Row cap := ⟨setRow start.pool 0 row, []⟩
    have hself : setRow start.pool 0 zero = start.pool := by
      refine setRow_self ?_
      rw [Vector.getElem?_eq_getElem hcap]
      exact congrArg some (Vector.getElem_replicate hcap)
    have hstored : start.pool.storeElem 0 c 1 v = setRow start.pool 0 row := by
      rw [← storeElem_setRow hcap, hself]
    have hrun : Run (Guarded Sys.CallStep C) start ([] ++ [.store 0 c 1 v]) s :=
      Run.snoc Run.nil ⟨congrArg (Sys.mk · []) hstored.symm, hstore _ _ _ _ _⟩
    obtain ⟨o, ho, hfresh⟩ := hF zero 0 (Int.le_refl 0) (Int.natCast_nonneg cap) _ s hrun
      (zeroArgs S) (-1) (.inl rfl) (hins s)
    have hchoose : chooseSlot s.pool (-1) = some (some ⟨s.pool, 0, true, false, []⟩) :=
      chooseSlot_empty hcap rfl rfl
    rcases insertArgs_rows ho with ⟨hfull, -⟩ | ⟨d, hd, -, hok, htaken, -⟩
    · rw [hchoose] at hfull
      cases hfull
    rw [hchoose] at hd
    cases hd
    obtain ⟨slot, hslot, hrow, -⟩ := hfresh hok
    obtain ⟨slot', old, hslot', hat, hrow', -⟩ := insertArgs_fresh ho hok fun _ _ =>
      zeroArgs_apart s.pool _
    have hzero : slot = 0 := by simpa [htaken] using hslot.symm
    have hzero' : slot' = 0 := by simpa [htaken] using hslot'.symm
    subst hzero hzero'
    rw [rows_setRow hcap] at hat
    cases hat
    rw [hrow', given_zeroArgs, Option.some.injEq] at hrow
    have hcol := congrFun hrow c
    rw [writtenRow, if_neg htext] at hcol
    rw [← hcol]
    simp [row]
  have h01 : (0 : S.Elem c) = 1 := (hold 0).symm.trans (hold 1)
  have hbits := bits_pos (S.col c).type
  have hnat : (0 : Nat) = 1 % 2 ^ (S.col c).type.bits := by
    simpa using congrArg BitVec.toNat h01
  rw [Nat.mod_eq_of_lt (Nat.one_lt_two_pow hbits.ne')] at hnat
  cases hnat

end WriteLemmas

/-- New rows depend on their arguments alone in every run of careful calls exactly if the shape has
no column of several elements but texts. -/
theorem fresh_rows_iff (hcap : 1 ≤ cap) (hword : cap < 2 ^ 31) :
    FreshRows S cap Sys.Careful ↔ S.TextArrays := by
  constructor
  · refine textArrays_of_fresh hcap (fun _ _ _ _ _ => trivial) fun s slot _ => ?_
    exact zeroArgs_apart s.pool slot
  · intro hS
    let zero : S.Row := fun _ => Vector.replicate _ 0
    refine ⟨fun g => writtenRow g zero, fun start length h0 h1 calls s hrun args ev hev hapart => ?_⟩
    have hk : Kept s := run_kept hcap hword h0 h1 (fun _ _ => reclaimed_of_careful) hrun
    obtain ⟨row, hrow, -⟩ := archeInsertArgs_eq s.pool args ev
    obtain ⟨o, ho, -⟩ := CapacityLemmas.insert_kept hk hcap hword row hev
    rw [← hrow] at ho
    refine ⟨o, ho, fun hok => ?_⟩
    obtain ⟨slot, old, hslot, -, hnew, hothers⟩ := insertArgs_fresh ho hok hapart
    refine ⟨slot, hslot, ?_, hothers⟩
    rw [hnew]
    exact congrArg some (writtenRow_fresh hS _ old zero)

theorem fresh_rows_iff_named :
    FreshRows (named 8) 2 Sys.Careful ↔ (named 8).TextArrays :=
  fresh_rows_iff (by decide) (by decide)

/-- A shape with an `int` column of two elements a row. -/
def pairs : Shape := ⟨1, fun _ => ⟨.int .w32 true, 2⟩⟩

/-- A new row of this shape keeps the second element that was stored there before. -/
theorem not_fresh_rows : ¬ FreshRows pairs 1 (fun _ _ => True) := fun h =>
  absurd (textArrays_of_fresh (by decide) (fun _ _ _ _ _ => trivial) (fun _ => trivial) h)
    (by decide)

end Arche.Codegen
