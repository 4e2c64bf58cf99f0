import Arche.Lib.Pieces
import Arche.Stdlib.Parse
import Arche.Stdlib.Router

/-!
# `csv.load`

The file is read by positions: `find_byte` returns the end of its window for a byte that is not in
it, and the cursor goes on one behind what was found. Positions never are negative and are `Nat`
here. The functions are `none` where an index leaves its array or the file.

1. `load_loads`: up to 64 columns and in files of fewer than `2 ^ 31` bytes, every row gets the
   cells of its line by the names of the header, and every byte read is one of the file.
2. `not_load_loads`: a file of `2 ^ 31` bytes has a negative `.length`, and a 65th column has no
   place in `load_cols`.
-/

namespace Arche.Stdlib.Csv

open Arche.Lib Parse

abbrev newline : UInt8 := 10
abbrev comma : UInt8 := 44

/-- An archetype of `int` columns. -/
structure Archetype where
  names : List (List UInt8)
  capacity : Nat
  named : ∀ name ∈ names, name ≠ [] ∧ 0 ∉ name

/-- The cells of a pool by column and row. -/
abbrev Pool := Nat → Nat → Int

def Pool.set (pool : Pool) (f row : Nat) (v : Int) : Pool :=
  fun f' row' => if f' = f ∧ row' = row then v else pool f' row'

/-- What the arrays of `load` hold where they are declared: `load_cols`, and `scratch` at each row
and column. -/
structure Locals where
  cols : List Int
  scratch : Nat → Nat → List UInt8
  cols_length : cols.length = 64
  scratch_length : ∀ row f, (scratch row f).length = 64

/-! ## The source -/

/-- The rounds of `find_byte` from `i` on. -/
def findByteFrom (data : List UInt8) (stop : Nat) (ch : UInt8) : Nat → Nat → Option Nat
  | 0, _ => some stop
  | k + 1, i =>
    if lengthOf data ≤ i then some stop
    else
      match data[i]? with
      | none => none
      | some b => if b = ch then some i else findByteFrom data stop ch k (i + 1)

/-- `find_byte` -/
def findByte (data : List UInt8) (start stop : Nat) (ch : UInt8) : Option Nat :=
  findByteFrom data stop ch (stop - start) start

/-- The rounds of `name_eq` from `i` on. -/
def nameEqFrom (name data : List UInt8) (start : Nat) : Nat → Nat → Option Bool
  | 0, _ => some true
  | k + 1, i =>
    if lengthOf name ≤ i then some false
    else if lengthOf data ≤ start + i then some false
    else
      match name[i]?, data[start + i]? with
      | some a, some b => if a ≠ b then some false else nameEqFrom name data start k (i + 1)
      | _, _ => none

/-- `name_eq` -/
def nameEq (name data : List UInt8) (start stop : Nat) : Option Bool :=
  if (Router.strlen name : Int) ≠ stop - start then some false
  else nameEqFrom name data start (stop - start) 0

/-- `field_at` from `p` on, `remaining` commas ahead. -/
def fieldAt (data : List UInt8) (rowEnd : Nat) : Nat → Nat → Option Nat
  | 0, p => some p
  | remaining + 1, p => do
    let e ← findByte data p rowEnd comma
    fieldAt data rowEnd remaining (e + 1)

/-- The loop over the cells of the header, for one name: `load_cols[f.index]`. Every round moves
`cstart` on. -/
def headerCol (data name : List UInt8) (hdrEnd : Nat) : Nat → Int → Nat → Option Int
  | 0, _, _ => some (-1)
  | k + 1, col, cstart =>
    if cstart < hdrEnd then do
      let cend ← findByte data cstart hdrEnd comma
      if ← nameEq name data cstart cend then some col
      else headerCol data name hdrEnd k (col + 1) (cend + 1)
    else some (-1)

/-- `#each_field` over the header. -/
def fillCols (data : List UInt8) (hdrEnd : Nat) :
    List (List UInt8) → Nat → List Int → Option (List Int)
  | [], _, cols => some cols
  | name :: names, f, cols =>
    if f < cols.length then do
      let c ← headerCol data name hdrEnd (hdrEnd + 1) 0 0
      fillCols data hdrEnd names (f + 1) (cols.set f c)
    else none

/-- The loop that copies a cell, with the last `j`. -/
def copyCell (data : List UInt8) : Nat → Nat → Nat → List UInt8 → Option (List UInt8 × Nat)
  | 0, _, j, scratch => some (scratch, j)
  | k + 1, i, j, scratch =>
    if j < scratch.length then do
      let b ← data[i]?
      copyCell data k (i + 1) (j + 1) (scratch.set j b)
    else none

/-- The value of cell `c` of the line from `pos` to `nl`. -/
def loadCell (data scratch : List UInt8) (pos nl c : Nat) : Option Int := do
  let fstart ← fieldAt data nl c pos
  let fend ← findByte data fstart nl comma
  let (scratch, j) ← copyCell data (fend - fstart) fstart 0 scratch
  if j < scratch.length then some (atoi (scratch.set j 0)) else none

/-- `#each_field` over a line, the `n` fields from `f` on. -/
def loadFields (data : List UInt8) (locals : Locals) (cols : List Int) (pos nl row : Nat) :
    Nat → Nat → Pool → Option Pool
  | 0, _, pool => some pool
  | n + 1, f, pool => do
    let c ← cols[f]?
    if 0 ≤ c then
      let v ← loadCell data (locals.scratch row f) pos nl c.toNat
      loadFields data locals cols pos nl row n (f + 1) (pool.set f row v)
    else loadFields data locals cols pos nl row n (f + 1) pool

/-- The loop over the rows. -/
def loadRows (data : List UInt8) (locals : Locals) (cols : List Int) (n : Nat) :
    Nat → Nat → Nat → Pool → Option Pool
  | 0, _, _, pool => some pool
  | k + 1, row, pos, pool =>
    if data.length ≤ pos then some pool
    else do
      let nl ← findByte data pos data.length newline
      let pool ← loadFields data locals cols pos nl row n 0 pool
      loadRows data locals cols n k (row + 1) (nl + 1) pool

/-- `load`, on the bytes of the file. -/
def load (arch : Archetype) (data : List UInt8) (locals : Locals) (pool : Pool) : Option Pool := do
  let hdrEnd ← findByte data 0 data.length newline
  let cols ← fillCols data hdrEnd arch.names 0 locals.cols
  loadRows data locals cols arch.names.length arch.capacity 0 (hdrEnd + 1) pool

/-! ## What is promised -/

/-- The lines behind the header. -/
def dataLines (data : List UInt8) : List (List UInt8) := (pieces newline data).tail

def cells (line : List UInt8) : List (List UInt8) := line.splitOn comma

/-- The cells of the first line. -/
def headerCells (data : List UInt8) : List (List UInt8) := cells (firstPiece newline data)

/-- What stands in row `k` of the column `name` afterwards, `old` before. -/
def expected (data name : List UInt8) (k : Nat) (old : Int) : Int :=
  if name ∈ headerCells data then
    match (dataLines data)[k]? with
    | none => old
    | some line =>
      match (cells line)[(headerCells data).idxOf name]? with
      | none => 0
      | some cell => atoi cell
  else old

/-- Every cell of the file is shorter than 64 bytes. -/
def ShortCells (data : List UInt8) : Prop :=
  ∀ line ∈ pieces newline data, ∀ cell ∈ cells line, cell.length < 64

instance (data : List UInt8) : Decidable (ShortCells data) :=
  inferInstanceAs (Decidable (∀ line ∈ pieces newline data, ∀ cell ∈ cells line, cell.length < 64))

/-- A run of `load` reads only bytes of the file and writes what is expected, and nothing else. -/
def Loads (arch : Archetype) (data : List UInt8) : Prop :=
  ∀ locals pool, ∃ after, load arch data locals pool = some after ∧
    ∀ f k, after f k =
      match arch.names[f]? with
      | some name => if k < arch.capacity then expected data name k (pool f k) else pool f k
      | none => pool f k

/-! ## Windows of the file -/

/-- The bytes from `start` to `stop`. -/
def part (data : List UInt8) (start stop : Nat) : List UInt8 := (data.take stop).drop start

section Parts
variable {data : List UInt8} {start stop : Nat}

theorem part_length (start : Nat) (hstop : stop ≤ data.length) :
    (part data start stop).length = stop - start := by
  rw [part, List.length_drop, List.length_take, Nat.min_eq_left hstop]

theorem part_of_le (h : stop ≤ start) : part data start stop = [] := by
  apply List.drop_eq_nil_of_le
  rw [List.length_take]
  omega

theorem part_cons (hlt : start < stop) (hstop : stop ≤ data.length) :
    part data start stop = data[start] :: part data (start + 1) stop := by
  have hin : start < (data.take stop).length := by
    rw [List.length_take]
    omega
  rw [part, List.drop_eq_getElem_cons hin, List.getElem_take]
  rfl

theorem part_to_end : part data start data.length = data.drop start := by
  rw [part, List.take_length]

theorem part_part (data : List UInt8) {n : Nat} (h : start + n ≤ stop) :
    part data start (start + n) = (part data start stop).take n := by
  rw [part, part, List.take_drop, List.take_take, Nat.min_eq_left h]

/-- `find_byte` returns the place of the first byte sought, or the end of the window. -/
theorem findByte_eq (hsize : data.length < 2 ^ 31) (hstop : stop ≤ data.length)
    (hle : start ≤ stop) (ch : UInt8) :
    findByte data start stop ch = some (start + (firstPiece ch (part data start stop)).length) := by
  obtain ⟨k, rfl⟩ := Nat.exists_eq_add_of_le hle
  have hfrom : ∀ k start, start + k ≤ data.length → findByteFrom data (start + k) ch k start =
      some (start + (firstPiece ch (part data start (start + k))).length) := by
    intro k
    induction k with
    | zero =>
      intro start _
      rw [Nat.add_zero, part_of_le (Nat.le_refl _)]
      rfl
    | succ k ih =>
      intro start hlen
      have hat : data[start]? = some data[start] := List.getElem?_eq_getElem (by omega)
      rw [findByteFrom, lengthOf_eq hsize, if_neg (by omega), hat, part_cons (by omega) hlen,
        firstPiece, List.takeWhile_cons]
      dsimp only
      by_cases hch : data[start] = ch
      · rw [if_pos hch, if_neg (by simpa using hch)]
        rfl
      · have hnext := ih (start + 1) (by omega)
        rw [show start + 1 + k = start + (k + 1) by omega] at hnext
        rw [if_neg hch, if_pos (by simpa using hch), hnext, List.length_cons, firstPiece]
        exact congrArg some (by omega)
  rw [findByte, Nat.add_sub_cancel_left]
  exact hfrom k start hstop

theorem findByte_past (hle : stop ≤ start) (ch : UInt8) :
    findByte data start stop ch = some stop := by
  rw [findByte, Nat.sub_eq_zero_of_le hle]
  rfl

theorem firstPiece_length_le (l : List UInt8) (ch : UInt8) : (firstPiece ch l).length ≤ l.length :=
  (List.takeWhile_prefix _).length_le

/-- The window up to what was found. -/
theorem part_found (hstop : stop ≤ data.length) (hle : start ≤ stop) (ch : UInt8) :
    part data start (start + (firstPiece ch (part data start stop)).length) =
      firstPiece ch (part data start stop) := by
  have hlen := firstPiece_length_le (part data start stop) ch
  rw [part_length _ hstop] at hlen
  have hin : start + (firstPiece ch (part data start stop)).length ≤ stop := by omega
  rw [part_part data hin]
  exact (List.prefix_iff_eq_take.1 (List.takeWhile_prefix _)).symm

/-- The window behind what was found. -/
theorem part_after (data : List UInt8) (start stop : Nat) (ch : UInt8) :
    part data (start + (firstPiece ch (part data start stop)).length + 1) stop =
      afterPiece ch (part data start stop) := by
  rw [afterPiece, part, part, List.drop_drop]
  exact congrArg (List.drop · _) (by omega)

end Parts

/-! ## The header -/

theorem strlen_of_notMem {name : List UInt8} (h : 0 ∉ name) : Router.strlen name = name.length := by
  induction name with
  | nil => rfl
  | cons ch name ih =>
    rw [List.mem_cons, not_or] at h
    rw [Router.strlen, if_neg (fun hch => h.1 hch.symm), ih h.2, List.length_cons]

/-- Past the header no cell is left. -/
theorem headerCol_past {data name : List UInt8} {hdrEnd cstart : Nat} (h : hdrEnd ≤ cstart)
    (k : Nat) (col : Int) : headerCol data name hdrEnd k col cstart = some (-1) := by
  cases k with
  | zero => rfl
  | succ k => rw [headerCol, if_neg (Nat.not_lt.2 h)]

section Header
variable {data name : List UInt8} (hsize : data.length < 2 ^ 31)
include hsize

/-- `name_eq` compares the name with the window. -/
theorem nameEq_eq (hname : 0 ∉ name) {start stop : Nat} (hle : start ≤ stop)
    (hstop : stop ≤ data.length) :
    nameEq name data start stop = some (decide (name = part data start stop)) := by
  have hlen := part_length start hstop
  rw [nameEq, strlen_of_notMem hname]
  by_cases hsame : name.length = stop - start
  · have hfrom : ∀ k i, i + k = stop - start → name.take i = (part data start stop).take i →
        nameEqFrom name data start k i = some (decide (name = part data start stop)) := by
      intro k
      induction k with
      | zero =>
        intro i hi heq
        rw [Nat.add_zero] at hi
        rw [hi, ← hsame, List.take_length, hsame, ← hlen, List.take_length] at heq
        rw [decide_eq_true heq]
        rfl
      | succ k ih =>
        intro i hi heq
        have hat : name[i]? = some name[i] := List.getElem?_eq_getElem (by omega)
        have hat' : data[start + i]? = some data[start + i] := List.getElem?_eq_getElem (by omega)
        have hpart : (part data start stop)[i] = data[start + i] := by
          simp [part]
        rw [nameEqFrom, lengthOf_eq (by omega), lengthOf_eq hsize, if_neg (by omega),
          if_neg (by omega), hat, hat']
        dsimp only
        by_cases hch : name[i] = data[start + i]
        · rw [if_neg (by simpa using hch)]
          refine ih (i + 1) (by omega) ?_
          rw [List.take_succ_eq_append_getElem (by omega),
            List.take_succ_eq_append_getElem (by omega), heq, hpart, hch]
        · rw [if_pos hch, decide_eq_false]
          rintro hall
          refine hch ?_
          rw [← hpart]
          simp [hall]
    rw [if_neg (by omega)]
    exact hfrom (stop - start) 0 (Nat.zero_add _) rfl
  · rw [if_pos (by omega), decide_eq_false]
    rintro rfl
    exact hsame hlen

/-- The first cell from `cstart` on that is the name. -/
theorem headerCol_eq (hname : name ≠ [] ∧ 0 ∉ name) {hdrEnd : Nat} (hend : hdrEnd ≤ data.length)
    {k cstart : Nat} (hk : hdrEnd < cstart + k) (hle : cstart ≤ hdrEnd) (col : Nat) :
    headerCol data name hdrEnd k col cstart =
      some (if name ∈ cells (part data cstart hdrEnd) then
        ((col + (cells (part data cstart hdrEnd)).idxOf name : Nat) : Int) else -1) := by
  induction k generalizing cstart col with
  | zero => omega
  | succ k ih =>
    unfold cells at *
    rw [headerCol]
    by_cases hlt : cstart < hdrEnd
    · have hpiece := part_found hend hle comma
      have hlen := firstPiece_length_le (part data cstart hdrEnd) comma
      rw [part_length _ hend] at hlen
      rw [if_pos hlt, findByte_eq hsize hend hle]
      simp only [Option.bind_eq_bind, Option.bind_some]
      rw [nameEq_eq hsize hname.2 (Nat.le_add_right _ _) (by omega), hpiece]
      simp only [Option.bind_some, decide_eq_true_eq]
      by_cases hcell : name = firstPiece comma (part data cstart hdrEnd)
      · obtain ⟨rest, hcells⟩ : ∃ rest,
            (part data cstart hdrEnd).splitOn comma = name :: rest := by
          by_cases hmem : comma ∈ part data cstart hdrEnd
          · exact ⟨_, by rw [splitOn_of_mem hmem, ← hcell]⟩
          · exact ⟨[], by rw [List.splitOn_eq_singleton hmem, hcell, firstPiece_of_notMem hmem]⟩
        rw [if_pos hcell, hcells, if_pos List.mem_cons_self, List.idxOf_cons_self, Nat.add_zero]
      · rw [if_neg hcell]
        by_cases hmem : comma ∈ part data cstart hdrEnd
        · have hcut := congrArg List.length (eq_of_mem hmem)
          rw [List.length_append, List.length_cons, part_length _ hend] at hcut
          have hin : cstart + (firstPiece comma (part data cstart hdrEnd)).length + 1 ≤ hdrEnd := by
            omega
          have hnext := ih (by omega) hin (col + 1)
          rw [part_after] at hnext
          rw [← Nat.cast_succ, hnext, splitOn_of_mem hmem, List.idxOf_cons_ne _ (Ne.symm hcell)]
          simp only [List.mem_cons, hcell, false_or]
          exact congrArg some (if_congr Iff.rfl (congrArg Nat.cast (by omega)) rfl)
        · have hall := firstPiece_of_notMem hmem
          rw [hall] at hcell
          rw [headerCol_past (by rw [hall, part_length _ hend]; omega),
            List.splitOn_eq_singleton hmem, if_neg (by simpa using hcell)]
    · obtain rfl : cstart = hdrEnd := by omega
      rw [if_neg hlt, part_of_le (Nat.le_refl _)]
      have hnot : name ∉ [].splitOn comma := by simpa using hname.1
      rw [if_neg hnot]

/-- The column of a name in the header, `-1` for none. -/
def colOf (data name : List UInt8) : Int :=
  if name ∈ headerCells data then ((headerCells data).idxOf name : Nat) else -1

omit hsize in
theorem header_end (data : List UInt8) :
    part data 0 (firstPiece newline data).length = firstPiece newline data := by
  rw [part, List.drop_zero]
  exact (List.prefix_iff_eq_take.1 (List.takeWhile_prefix _)).symm

/-- `#each_field` over the header fills `load_cols`. -/
theorem fillCols_eq {names : List (List UInt8)} (hnames : ∀ name ∈ names, name ≠ [] ∧ 0 ∉ name)
    {f : Nat} {cols : List Int} (hlen : f + names.length ≤ cols.length) :
    ∃ cols', fillCols data (firstPiece newline data).length names f cols = some cols' ∧
      (∀ i < f, cols'[i]? = cols[i]?) ∧
      ∀ i (h : i < names.length), cols'[f + i]? = some (colOf data names[i]) := by
  induction names generalizing f cols with
  | nil => exact ⟨cols, rfl, fun _ _ => rfl, fun _ h => absurd h (Nat.not_lt_zero _)⟩
  | cons name names ih =>
    have hcol : headerCol data name (firstPiece newline data).length
        ((firstPiece newline data).length + 1) 0 0 = some (colOf data name) := by
      have heq := headerCol_eq hsize (hnames name List.mem_cons_self)
        (firstPiece_length_le data newline) (k := (firstPiece newline data).length + 1)
        (by omega) (Nat.zero_le _) 0
      rw [header_end] at heq
      rw [colOf, headerCells, ← Nat.zero_add (List.idxOf _ _)]
      exact heq
    rw [List.length_cons] at hlen
    have hroom : f < cols.length := by omega
    have hrest : f + 1 + names.length ≤ (cols.set f (colOf data name)).length := by
      rw [List.length_set]
      omega
    obtain ⟨cols', hfill, hold, hnew⟩ :=
      ih (fun n hn => hnames n (List.mem_cons_of_mem _ hn)) hrest
    refine ⟨cols', ?_, fun i hi => ?_, fun i hi => ?_⟩
    · rw [fillCols, if_pos hroom, hcol]
      exact hfill
    · rw [hold i (by omega), List.getElem?_set_ne (by omega)]
    · cases i with
      | zero => rw [Nat.add_zero, hold f (by omega), List.getElem?_set_self hroom]; rfl
      | succ i =>
        rw [← Nat.add_assoc, Nat.add_right_comm, hnew i (Nat.lt_of_succ_lt_succ hi)]
        rfl

end Header

/-! ## A cell -/

/-- Behind the last comma of the line the cursor stays one behind it. -/
theorem fieldAt_past (data : List UInt8) (rowEnd c : Nat) :
    fieldAt data rowEnd c (rowEnd + 1) = some (rowEnd + 1) := by
  induction c with
  | zero => rfl
  | succ c ih =>
    rw [fieldAt, findByte_past (Nat.le_succ _)]
    exact ih

theorem copyCell_eq {data : List UInt8} {k i j : Nat} {scratch : List UInt8}
    (hdata : i + k ≤ data.length) (hroom : j + k ≤ scratch.length) :
    copyCell data k i j scratch =
      some (scratch.take j ++ part data i (i + k) ++ scratch.drop (j + k), j + k) := by
  induction k generalizing i j scratch with
  | zero =>
    rw [Nat.add_zero, Nat.add_zero, part_of_le (Nat.le_refl _), List.append_nil,
      List.take_append_drop]
    rfl
  | succ k ih =>
    have hat : data[i]? = some data[i] := List.getElem?_eq_getElem (by omega)
    have hdata' : i + 1 + k ≤ data.length := by omega
    have hroom' : j + 1 + k ≤ (scratch.set j data[i]).length := by
      rw [List.length_set]
      omega
    have hnext := ih hdata' hroom'
    rw [copyCell, if_pos (by omega), hat]
    refine Eq.trans hnext ?_
    have htake : (scratch.set j data[i]).take (j + 1) = scratch.take j ++ [data[i]] := by
      rw [List.take_succ_eq_append_getElem (by rw [List.length_set]; omega),
        List.getElem_set_self, List.take_set_of_le (Nat.le_refl _)]
    rw [htake, List.drop_set_of_lt (by omega), part_cons (Nat.lt_add_of_pos_right k.succ_pos) hdata,
      Nat.add_right_comm j 1 k, Nat.add_right_comm i 1 k]
    simp [Nat.add_assoc]

/-- The number in cell `c` of a line, `0` for none. -/
def cellValue (line : List UInt8) (c : Nat) : Int :=
  match (cells line)[c]? with
  | none => 0
  | some cell => atoi cell

section Cell
variable {data : List UInt8} (hsize : data.length < 2 ^ 31)
include hsize

/-- Where cell `c` of the line starts. -/
theorem fieldAt_eq {p nl : Nat} (hnl : nl ≤ data.length) (hp : p ≤ nl) (c : Nat) :
    ∃ q, fieldAt data nl c p = some q ∧
      ((q ≤ nl ∧ (cells (part data p nl)).drop c = cells (part data q nl)) ∨
        (q = nl + 1 ∧ (cells (part data p nl)).length ≤ c)) := by
  induction c generalizing p with
  | zero => exact ⟨p, rfl, .inl ⟨hp, rfl⟩⟩
  | succ c ih =>
    unfold cells at *
    rw [fieldAt, findByte_eq hsize hnl hp]
    by_cases hmem : comma ∈ part data p nl
    · have hcut := congrArg List.length (eq_of_mem hmem)
      rw [List.length_append, List.length_cons, part_length _ hnl] at hcut
      obtain ⟨q, hq, hcells⟩ := ih
        (p := p + (firstPiece comma (part data p nl)).length + 1) (by omega)
      rw [part_after] at hcells
      refine ⟨q, hq, ?_⟩
      rw [splitOn_of_mem hmem, List.drop_succ_cons, List.length_cons]
      exact hcells.imp_right fun h => ⟨h.1, Nat.succ_le_succ h.2⟩
    · refine ⟨nl + 1, ?_, .inr ⟨rfl, ?_⟩⟩
      · have hend : p + (firstPiece comma (part data p nl)).length = nl := by
          rw [firstPiece_of_notMem hmem, part_length _ hnl]
          omega
        rw [hend]
        exact fieldAt_past data nl c
      · rw [List.splitOn_eq_singleton hmem]
        exact Nat.succ_le_succ (Nat.zero_le c)

theorem loadCell_eq {scratch : List UInt8} (hscratch : scratch.length = 64) {pos nl : Nat}
    (hnl : nl ≤ data.length) (hpos : pos ≤ nl)
    (hshort : ∀ cell ∈ cells (part data pos nl), cell.length < 64) (c : Nat) :
    loadCell data scratch pos nl c = some (cellValue (part data pos nl) c) := by
  obtain ⟨q, hq, ⟨hle, hdrop⟩ | ⟨rfl, hfew⟩⟩ := fieldAt_eq hsize hnl hpos c
  · obtain ⟨rest, hrest⟩ : ∃ rest,
        cells (part data q nl) = firstPiece comma (part data q nl) :: rest := by
      by_cases hmem : comma ∈ part data q nl
      · exact ⟨_, splitOn_of_mem hmem⟩
      · exact ⟨[], by rw [cells, List.splitOn_eq_singleton hmem, firstPiece_of_notMem hmem]⟩
    have hat : (cells (part data pos nl))[c]? = some (firstPiece comma (part data q nl)) := by
      rw [← List.head?_drop, hdrop, hrest]
      rfl
    have hlt := hshort _ (List.mem_of_getElem? hat)
    have hlen := firstPiece_length_le (part data q nl) comma
    rw [part_length _ hnl] at hlen
    have hdata : q + (firstPiece comma (part data q nl)).length ≤ data.length := by omega
    have hroom : 0 + (firstPiece comma (part data q nl)).length ≤ scratch.length := by omega
    have hcopy := copyCell_eq hdata hroom
    rw [part_found hnl hle, List.take_zero, List.nil_append, Nat.zero_add] at hcopy
    obtain ⟨b, tail, htail⟩ : ∃ b tail,
        scratch.drop (firstPiece comma (part data q nl)).length = b :: tail :=
      ⟨_, _, List.drop_eq_getElem_cons (by omega)⟩
    rw [loadCell, hq]
    simp only [Option.bind_eq_bind, Option.bind_some]
    rw [findByte_eq hsize hnl hle, Option.bind_some, Nat.add_sub_cancel_left, hcopy,
      Option.bind_some, htail]
    have hset : (firstPiece comma (part data q nl) ++ b :: tail).set
        (firstPiece comma (part data q nl)).length 0 =
          firstPiece comma (part data q nl) ++ 0 :: tail := by
      rw [List.set_append_right _ _ (Nat.le_refl _), Nat.sub_self, List.set_cons_zero]
    have htotal := congrArg List.length htail
    rw [List.length_drop, List.length_cons] at htotal
    dsimp only
    rw [if_pos (by rw [List.length_append, List.length_cons]; omega), hset,
      atoi_append_nul tail (by rw [List.length_append, List.length_cons]; omega), cellValue, hat]
  · obtain ⟨b, tail, rfl⟩ : ∃ b tail, scratch = b :: tail :=
      List.exists_cons_of_length_pos (by omega)
    have htail : tail.length < 2 ^ 31 - 1 := by
      rw [List.length_cons] at hscratch
      omega
    have hzero : atoi (0 :: tail) = 0 :=
      atoi_append_nul (s := []) tail (by rw [List.nil_append, List.length_cons]; omega)
    rw [loadCell, hq]
    simp only [Option.bind_eq_bind, Option.bind_some]
    rw [findByte_past (Nat.le_succ nl), Option.bind_some, Nat.sub_eq_zero_of_le (Nat.le_succ nl),
      copyCell, Option.bind_some, cellValue, List.getElem?_eq_none hfew]
    dsimp only
    rw [List.set_cons_zero, hzero]
    rfl

end Cell

/-! ## The rows -/

section Rows
variable {data : List UInt8} (hsize : data.length < 2 ^ 31) (locals : Locals) {cols : List Int}
include hsize

/-- `#each_field` over one line. -/
theorem loadFields_eq (row : Nat) {pos nl : Nat} (hnl : nl ≤ data.length) (hpos : pos ≤ nl)
    (hshort : ∀ cell ∈ cells (part data pos nl), cell.length < 64) {n f : Nat}
    (hcols : f + n ≤ cols.length) (pool : Pool) :
    ∃ after, loadFields data locals cols pos nl row n f pool = some after ∧
      ∀ f' row', after f' row' = if f ≤ f' ∧ f' < f + n ∧ row' = row ∧ 0 ≤ cols.getD f' (-1) then
        cellValue (part data pos nl) (cols.getD f' (-1)).toNat else pool f' row' := by
  induction n generalizing f pool with
  | zero => exact ⟨pool, rfl, fun f' row' => (if_neg (by omega)).symm⟩
  | succ n ih =>
    have hat : cols[f]? = some cols[f] := List.getElem?_eq_getElem (by omega)
    have hget : cols.getD f (-1) = cols[f] := by rw [List.getD_eq_getElem?_getD, hat]; rfl
    rw [loadFields, hat]
    simp only [Option.bind_eq_bind, Option.bind_some]
    split
    · next hc =>
      rw [loadCell_eq hsize (locals.scratch_length row f) hnl hpos hshort, Option.bind_some]
      obtain ⟨after, hafter, hspec⟩ := ih (f := f + 1) (by omega) (pool.set f row _)
      refine ⟨after, hafter, fun f' row' => ?_⟩
      rw [hspec, Pool.set]
      by_cases hf : f' = f
      · subst hf
        rw [if_neg (by omega), hget]
        have hsame : f' = f' ∧ row' = row ↔
            f' ≤ f' ∧ f' < f' + (n + 1) ∧ row' = row ∧ 0 ≤ cols[f'] :=
          ⟨fun h => ⟨Nat.le_refl _, by omega, h.2, hc⟩, fun h => ⟨rfl, h.2.2.1⟩⟩
        exact if_congr hsame rfl rfl
      · rw [if_neg (fun h : f' = f ∧ row' = row => hf h.1)]
        exact if_congr (by omega) rfl rfl
    · next hc =>
      obtain ⟨after, hafter, hspec⟩ := ih (f := f + 1) (by omega) pool
      refine ⟨after, hafter, fun f' row' => ?_⟩
      rw [hspec]
      by_cases hf : f' = f
      · subst hf
        rw [if_neg (by omega), if_neg (by rw [hget]; omega)]
      · exact if_congr (by omega) rfl rfl

/-- The loop over the rows: row `row + i` gets the `i`-th line from `pos` on. -/
theorem loadRows_eq (hshort : ShortCells data) {n : Nat} (hcols : n ≤ cols.length)
    (k row : Nat) {pos : Nat}
    (hpos : ∀ line ∈ pieces newline (data.drop pos), line ∈ pieces newline data) (pool : Pool) :
    ∃ after, loadRows data locals cols n k row pos pool = some after ∧
      ∀ f row', after f row' =
        if row ≤ row' ∧ row' < row + k ∧ f < n ∧ 0 ≤ cols.getD f (-1) then
          match (pieces newline (data.drop pos))[row' - row]? with
          | none => pool f row'
          | some line => cellValue line (cols.getD f (-1)).toNat
        else pool f row' := by
  induction k generalizing row pos pool with
  | zero => exact ⟨pool, rfl, fun f row' => (if_neg (by omega)).symm⟩
  | succ k ih =>
    rw [loadRows]
    by_cases hend : data.length ≤ pos
    · refine ⟨pool, if_pos hend, fun f row' => ?_⟩
      rw [List.drop_eq_nil_of_le hend, pieces_nil, List.getElem?_nil, ite_self]
    · have hne : data.drop pos ≠ [] := by
        rw [Ne, List.drop_eq_nil_iff]
        exact hend
      have hline : pieces newline (data.drop pos) = _ := pieces_of_ne_nil hne
      have hpart := part_found (Nat.le_refl data.length) (Nat.le_of_not_le hend) newline
      have hafter := part_after data pos data.length newline
      have hfind := findByte_eq hsize (Nat.le_refl data.length) (Nat.le_of_not_le hend) newline
      have hle := firstPiece_length_le (data.drop pos) newline
      rw [part_to_end] at hpart hafter hfind
      rw [part_to_end] at hafter
      rw [List.length_drop] at hle
      rw [hline] at hpos ⊢
      have hnl : pos + (firstPiece newline (data.drop pos)).length ≤ data.length := by omega
      have hcells := hshort _ (hpos _ List.mem_cons_self)
      rw [← hpart] at hcells
      obtain ⟨mid, hmid, hfields⟩ := loadFields_eq hsize locals row hnl (Nat.le_add_right _ _)
        hcells (f := 0) (by omega : 0 + n ≤ cols.length) pool
      have hrest : ∀ line ∈ pieces newline
          (data.drop (pos + (firstPiece newline (data.drop pos)).length + 1)),
          line ∈ pieces newline data := by
        rw [hafter]
        exact fun line hl => hpos line (List.mem_cons_of_mem _ hl)
      obtain ⟨after, hrun, hrows⟩ := ih (row + 1) hrest mid
      refine ⟨after, ?_, fun f row' => ?_⟩
      · rw [if_neg hend, hfind]
        simp only [Option.bind_eq_bind, Option.bind_some]
        rw [hmid, Option.bind_some, hrun]
      rw [hrows, hafter]
      by_cases hrow : row' = row
      · subst hrow
        rw [if_neg (by omega), hfields, hpart, Nat.sub_self, List.getElem?_cons_zero]
        exact if_congr (by omega) rfl rfl
      · have hother : mid f row' = pool f row' := by
          rw [hfields]
          exact if_neg fun h => hrow h.2.2.1
        rw [hother]
        by_cases hin : row ≤ row' ∧ row' < row + (k + 1) ∧ f < n ∧ 0 ≤ cols.getD f (-1)
        · obtain ⟨i, rfl⟩ : ∃ i, row' = row + 1 + i := ⟨row' - row - 1, by omega⟩
          have hi : row + 1 + i - (row + 1) = i := Nat.add_sub_cancel_left _ _
          have hi' : row + 1 + i - row = i + 1 := by omega
          have hin' : row + 1 ≤ row + 1 + i ∧ row + 1 + i < row + 1 + k ∧ f < n ∧
              0 ≤ cols.getD f (-1) := ⟨by omega, by omega, hin.2.2⟩
          rw [if_pos hin', if_pos hin, hi, hi', List.getElem?_cons_succ]
        · rw [if_neg hin, if_neg]
          exact fun h => hin ⟨by omega, by omega, h.2.2⟩

end Rows

/-! ## The whole file -/

theorem load_loads (arch : Archetype) (data : List UInt8) (hcols : arch.names.length ≤ 64)
    (hsize : data.length < 2 ^ 31) (hshort : ShortCells data) : Loads arch data := by
  intro locals pool
  have hfind := findByte_eq hsize (Nat.le_refl data.length) (Nat.zero_le _) newline
  rw [part_to_end, List.drop_zero, Nat.zero_add] at hfind
  have hroom : 0 + arch.names.length ≤ locals.cols.length := by
    rw [locals.cols_length]
    omega
  obtain ⟨cols, hfill, -, hcol⟩ := fillCols_eq hsize arch.named hroom
  have hlines : pieces newline (data.drop ((firstPiece newline data).length + 1)) =
      dataLines data := by
    rw [dataLines]
    by_cases hdata : data = []
    · rw [hdata]
      rfl
    · rw [pieces_of_ne_nil hdata]
      rfl
  have hmem : ∀ line ∈ dataLines data, line ∈ pieces newline data :=
    fun line hl => List.mem_of_mem_tail hl
  have hat : ∀ f (hf : f < arch.names.length), cols.getD f (-1) = colOf data arch.names[f] := by
    intro f hf
    have hget := hcol f hf
    rw [Nat.zero_add] at hget
    rw [List.getD_eq_getElem?_getD, hget]
    rfl
  have hlen : arch.names.length ≤ cols.length := by
    by_contra hlt
    have hget := hcol cols.length (by omega)
    rw [Nat.zero_add, List.getElem?_eq_none (Nat.le_refl _)] at hget
    cases hget
  rw [← hlines] at hmem
  obtain ⟨after, hrun, hrows⟩ := loadRows_eq hsize locals hshort hlen arch.capacity 0 hmem pool
  refine ⟨after, ?_, fun f k => ?_⟩
  · rw [load, hfind]
    simp only [Option.bind_eq_bind, Option.bind_some]
    rw [hfill, Option.bind_some, hrun]
  rw [hrows, hlines]
  cases hname : arch.names[f]? with
  | none =>
    rw [if_neg]
    intro h
    exact absurd h.2.2.1 (by simpa using hname)
  | some name =>
    obtain ⟨hf, rfl⟩ := List.getElem?_eq_some_iff.1 hname
    dsimp only
    rw [hat f hf, Nat.sub_zero, expected, colOf]
    by_cases hk : k < arch.capacity
    · rw [if_pos hk]
      by_cases hin : arch.names[f] ∈ headerCells data
      · rw [if_pos hin, if_pos hin, if_pos ⟨Nat.zero_le _, by omega, hf, Int.natCast_nonneg _⟩]
        rfl
      · rw [if_neg hin, if_neg hin, if_neg (by omega)]
    · rw [if_neg hk, if_neg (by omega)]

/-- A column `a` with two rows. -/
def single : Archetype := ⟨[[97]], 2, by decide⟩

/-- A short row and a last line without a newline: `b,a`, `1` and `2,7`. -/
theorem load_loads_short : Loads single [98, 44, 97, 10, 49, 10, 50, 44, 55] :=
  load_loads _ _ (by decide) (by decide) (by decide)

/-! ## Larger files and archetypes -/

/-- What the arrays hold is of no account: zeros. -/
def zeros : Locals :=
  ⟨List.replicate 64 0, fun _ _ => List.replicate 64 0, List.length_replicate,
    fun _ _ => List.length_replicate⟩

/-- With a negative `.length` no byte is found. -/
theorem findByte_of_neg {data : List UInt8} (h : lengthOf data < 0) (start stop : Nat)
    (ch : UInt8) : findByte data start stop ch = some stop := by
  rw [findByte]
  cases stop - start with
  | zero => rfl
  | succ k => rw [findByteFrom, if_pos (by omega)]

/-- And no row is loaded. -/
theorem load_of_neg {arch : Archetype} {data : List UInt8} (h : lengthOf data < 0)
    {locals : Locals} {pool after : Pool} (hload : load arch data locals pool = some after) :
    after = pool := by
  rw [load, findByte_of_neg h] at hload
  simp only [Option.bind_eq_bind, Option.bind_some] at hload
  obtain ⟨cols, -, hrows⟩ := Option.bind_eq_some_iff.1 hload
  cases hcap : arch.capacity with
  | zero =>
    rw [hcap] at hrows
    exact (Option.some.inj hrows).symm
  | succ k =>
    rw [hcap, loadRows, if_pos (Nat.le_succ _)] at hrows
    exact (Option.some.inj hrows).symm

theorem pieces_newlines (n : Nat) :
    ∀ line ∈ pieces newline (List.replicate n newline), line = [] := by
  induction n with
  | zero => simp [pieces_nil]
  | succ n ih =>
    rw [pieces_of_ne_nil (by simp), List.replicate_succ]
    exact fun line hl => (List.mem_cons.1 hl).elim id (ih line)

/-- The header `a` and empty lines, `2 ^ 31` bytes. -/
def bigFile : List UInt8 := 97 :: newline :: newline :: List.replicate (2 ^ 31 - 3) newline

/-- A file with a line whose first cell is empty, under the header `a`. -/
theorem not_loads_of_neg {data : List UInt8} (hneg : lengthOf data < 0)
    (hheader : headerCells data = [[97]]) (hline : (dataLines data)[0]? = some []) :
    ¬ Loads single data := by
  intro hloads
  obtain ⟨after, hload, hspec⟩ := hloads zeros fun _ _ => 7
  have hcell : after 0 0 = expected data [97] 0 7 := hspec 0 0
  rw [load_of_neg hneg hload, expected, hheader, hline] at hcell
  exact absurd hcell (by decide)

theorem fillCols_none {data : List UInt8} {hdrEnd : Nat} {names : List (List UInt8)} {f : Nat}
    {cols : List Int} (hf : f ≤ cols.length) (hroom : cols.length < f + names.length) :
    fillCols data hdrEnd names f cols = none := by
  induction names generalizing f cols with
  | nil => exact absurd hroom (Nat.not_lt.2 hf)
  | cons name names ih =>
    rw [List.length_cons] at hroom
    rw [fillCols]
    split
    · next hlt =>
      simp only [Option.bind_eq_bind]
      refine Option.bind_eq_none_iff.2 fun c _ => ih ?_ ?_ <;> rw [List.length_set] <;> omega
    · rfl

/-- A 65th column has no place. -/
theorem load_wide {arch : Archetype} (h : 64 < arch.names.length) (data : List UInt8)
    (locals : Locals) (pool : Pool) : load arch data locals pool = none := by
  rw [load]
  refine Option.bind_eq_none_iff.2 fun hdrEnd _ => ?_
  rw [fillCols_none (Nat.zero_le _) (by rw [locals.cols_length]; omega)]
  rfl

/-- 65 columns. -/
def wide : Archetype where
  names := (List.range 65).map fun i => List.replicate (i + 1) 97
  capacity := 1
  named := by
    intro name hname
    obtain ⟨i, -, rfl⟩ := List.mem_map.1 hname
    exact ⟨by simp, by simp⟩

theorem not_load_loads : (ShortCells bigFile ∧ ¬ Loads single bigFile) ∧
    (ShortCells [] ∧ ¬ Loads wide []) := by
  have hpieces : ∀ n, pieces newline (97 :: newline :: newline :: List.replicate n newline) =
      [97] :: [] :: pieces newline (List.replicate n newline) := by
    intro n
    rw [pieces_of_ne_nil (List.cons_ne_nil _ _)]
    refine congrArg _ ?_
    exact pieces_of_ne_nil (List.cons_ne_nil newline _)
  have hneg : lengthOf bigFile < 0 := by
    rw [lengthOf, bigFile, List.length_cons, List.length_cons, List.length_cons,
      List.length_replicate]
    decide
  have hheader : ∀ rest, headerCells (97 :: newline :: rest) = [[97]] := fun _ => rfl
  have hline : (dataLines bigFile)[0]? = some [] := by
    rw [dataLines, bigFile, hpieces]
    rfl
  refine ⟨⟨?_, not_loads_of_neg hneg (hheader _) hline⟩, by decide, fun hloads => ?_⟩
  · rw [ShortCells, bigFile, hpieces]
    intro line hl
    rcases List.mem_cons.1 hl with rfl | hl
    · decide
    rcases List.mem_cons.1 hl with rfl | hl
    · decide
    · rw [pieces_newlines _ line hl]
      decide
  · obtain ⟨after, hload, -⟩ := hloads zeros fun _ _ => 0
    rw [load_wide (by decide)] at hload
    cases hload

end Arche.Stdlib.Csv
