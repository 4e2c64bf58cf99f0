import Arche.Codegen.WasmGen
import Mathlib.Data.List.MinMax

/-!
# The places in linear memory

Three allocators share the memory of a module: the argument block of `printf` starts at
512, the string literals at 1024 and the local arrays at 16384. None of them looks at the
place of the next or at the end of the memory.

`Reached` says where an emission has placed what. `disjoint_regions`: the regions are
disjoint and inside the memory exactly if the longest `printf`, the bytes of the literals
and the bytes of the arrays keep below the bounds of `Fits`.
-/

namespace Arche.Codegen.WasmGen

open Arche.Lib Region

/-! ## What a program places -/

/-- The literals a print call places. -/
def literalsOf : List Expr → List (List Char)
  | .string _ fmt :: args =>
    fmt :: args.filterMap fun e => match e with | .string _ value => some value | _ => none
  | _ => []

/-- The arguments of a print call that go through the argument block. -/
def slotsOf : List Expr → List Nat
  | .string _ _ :: e :: args => [(e :: args).length]
  | _ => []

mutual

/-- The string literals of a statement, in the order in which they are placed. -/
def literals : Stmt → List (List Char)
  | .expr e => literalsOf ((printArgs e).getD [])
  | .forLoop init _ incr body => literals init ++ literalsAll body ++ literals incr
  | .ifElse _ t e => literalsAll t ++ literalsAll e
  | _ => []

def literalsAll : List Stmt → List (List Char)
  | [] => []
  | s :: ss => literals s ++ literalsAll ss

end

mutual

/-- The numbers of arguments of the `printf` calls of a statement. -/
def slots : Stmt → List Nat
  | .expr e => slotsOf ((printArgs e).getD [])
  | .forLoop init _ incr body => slots init ++ slotsAll body ++ slots incr
  | .ifElse _ t e => slotsAll t ++ slotsAll e
  | _ => []

def slotsAll : List Stmt → List Nat
  | [] => []
  | s :: ss => slots s ++ slotsAll ss

end

/-- The bytes of an array. -/
def byteSize (t : HirType) : Nat := totalElems t * scalarSize (baseElem t)

mutual

/-- The sizes of the local arrays of a statement. -/
def arraySizes : Stmt → List Nat
  | .bind _ type value => ((bindArrayType type value).map byteSize).toList
  | .forLoop init _ incr body => arraySizes init ++ arraySizesAll body ++ arraySizes incr
  | .ifElse _ t e => arraySizesAll t ++ arraySizesAll e
  | _ => []

def arraySizesAll : List Stmt → List Nat
  | [] => []
  | s :: ss => arraySizes s ++ arraySizesAll ss

end

/-- The longest argument list of a `printf`. -/
def maxArgs (p : Program) : Nat := (slotsAll (entryStmts p)).foldr max 0

/-- The bytes of the string literals. -/
def literalBytes (p : Program) : Nat := ((literalsAll (entryStmts p)).map fun l => (unescape l).length).sum

/-- The bytes of the arrays that get a place. -/
def arrayBytes (p : Program) : Nat := ((arraySizesAll (entryStmts p)).take maxArrays).sum

/-! ## Where it is placed -/

/-- The allocators have placed the literals `ls`, arrays of the sizes `as` and argument blocks for
`ns` arguments. -/
structure Reached (g : Wg) (ls : List (List Char)) (as ns : List Nat) : Prop where
  interned : g.interned = spans stringsBase (ls.map fun l => (unescape l).length)
  strings : g.strings.length = (ls.map fun l => (unescape l).length).sum
  arrays : g.arrays.map Array.region = spans arraysBase (as.take maxArrays)
  arrays_length : g.arrays.length = min maxArrays as.length
  cursor : g.arraysCursor = arraysBase + (as.take maxArrays).sum
  argBlocks : g.argBlocks = ns.map fun n => ⟨argsBase, 8 * n⟩

/-- The tables without the locals. -/
def Wg.memory (g : Wg) : Wg := { g with locals := [], localCount := 0 }

section Reaching

variable {g g' : Wg} {ls : List (List Char)} {as ns : List Nat} {consts : List (String × Expr)}

theorem reached_init : Reached .init [] [] [] := ⟨rfl, rfl, rfl, rfl, rfl, rfl⟩

theorem Reached.of_memory (h : Reached g ls as ns) (heq : g'.memory = g.memory) :
    Reached g' ls as ns := by
  simp only [Wg.memory, Wg.mk.injEq, true_and] at heq
  obtain ⟨hstrings, hcursor, harrays, hinterned, hblocks⟩ := heq
  exact ⟨hinterned ▸ h.interned, hstrings ▸ h.strings, harrays ▸ h.arrays,
    harrays ▸ h.arrays_length, hcursor ▸ h.cursor, hblocks ▸ h.argBlocks⟩

/-- Expressions place nothing. -/
theorem kept_memory : Local.Kept fun g g' => g'.memory = g.memory := by
  refine ⟨fun _ => rfl, fun h h' => h'.trans h, fun g x wt => ?_⟩
  unfold wgLocal
  split <;> rfl

/-! ### The allocators -/

theorem Reached.intern (h : Reached g ls as ns) (raw : List Char) :
    Reached (internString g raw).2.2 (ls ++ [raw]) as ns := by
  refine ⟨?_, ?_, h.arrays, h.arrays_length, h.cursor, h.argBlocks⟩
  · rw [List.map_append, spans_append, ← h.interned, ← h.strings]
    rfl
  · simp [internString, h.strings]

theorem Reached.declare (h : Reached g ls as ns) (x : String) (t : HirType) :
    Reached (arrayDecl g x t).2 ls (as ++ [byteSize t]) ns := by
  have hlen := h.arrays_length
  unfold arrayDecl
  split
  · next hfull =>
    have htake : (as ++ [byteSize t]).take maxArrays = as.take maxArrays :=
      List.take_append_of_le_length (by omega)
    refine ⟨h.interned, h.strings, ?_, ?_, ?_, h.argBlocks⟩
    · rw [htake, h.arrays]
    · simp only [List.length_append, List.length_singleton]
      omega
    · rw [htake, h.cursor]
  · next hfree =>
    have htake : (as ++ [byteSize t]).take maxArrays = as ++ [byteSize t] :=
      List.take_of_length_le (by rw [List.length_append, List.length_singleton]; omega)
    have htake' : as.take maxArrays = as := List.take_of_length_le (by omega)
    have hcursor := h.cursor
    have harrays := h.arrays
    rw [htake'] at hcursor harrays
    refine ⟨h.interned, h.strings, ?_, ?_, ?_, h.argBlocks⟩
    · rw [htake, spans_append, ← harrays, List.map_append, ← hcursor]
      rfl
    · simp only [List.length_append, List.length_singleton]
      omega
    · rw [htake, List.sum_append, List.sum_singleton, ← Nat.add_assoc, ← hcursor]
      rfl

theorem Reached.slot (consts : List (String × Expr)) (h : Reached g ls as ns) (n : Nat) (e : Expr) :
    Reached (emitSlot consts g n e).2
      (ls ++ ([e].filterMap fun e => match e with | .string _ value => some value | _ => none)) as ns := by
  unfold emitSlot
  split
  · exact h.intern _
  · next hne =>
    have hnil : ([e].filterMap fun e => match e with | .string _ value => some value | _ => none) =
        ([] : List (List Char)) := by
      cases e with
      | string t value => exact absurd rfl (hne t value)
      | _ => rfl
    rw [hnil, List.append_nil]
    split
    · split <;> exact h
    · exact h.of_memory (kept_memory.expr g e)

theorem Reached.argSlots (consts : List (String × Expr)) (h : Reached g ls as ns) (n : Nat) (es : List Expr) :
    Reached (emitSlots consts g n es).2
      (ls ++ es.filterMap fun e => match e with | .string _ value => some value | _ => none) as ns := by
  induction es generalizing g ls n with
  | nil =>
    rw [List.filterMap_nil, List.append_nil]
    exact h
  | cons e es ih =>
    have hstep := ih (h.slot consts n e) (n + 8)
    rw [List.append_assoc, ← List.filterMap_append] at hstep
    exact hstep

theorem Reached.printf (h : Reached g ls as ns) (args : List Expr) :
    Reached (emitPrintf consts g args).2 (ls ++ literalsOf args) as (ns ++ slotsOf args) := by
  unfold emitPrintf
  split
  · next fmt args =>
    have hfmt := h.intern fmt
    cases args with
    | nil => simpa [literalsOf, slotsOf] using hfmt
    | cons e es =>
      have hblock : Reached (logArgs (internString g fmt).2.2 (e :: es).length)
          (ls ++ [fmt]) as (ns ++ [(e :: es).length]) := by
        refine ⟨hfmt.interned, hfmt.strings, hfmt.arrays, hfmt.arrays_length, hfmt.cursor, ?_⟩
        rw [List.map_append, ← hfmt.argBlocks]
        rfl
      have hslots := hblock.argSlots consts argsBase (e :: es)
      rw [List.append_assoc] at hslots
      simp only [reduceCtorEq, if_false]
      exact hslots
  · next hother =>
    have hlit : literalsOf args = [] := by
      unfold literalsOf
      split
      · next fmt args => exact absurd rfl (hother _ fmt args)
      · rfl
    have hslots : slotsOf args = [] := by
      unfold slotsOf
      split
      · next fmt e es => exact absurd rfl (hother _ fmt _)
      · rfl
    rw [hlit, hslots, List.append_nil, List.append_nil]
    exact h

theorem Reached.bind (h : Reached g ls as ns) (x : String) (type : HirType) (value : Init) :
    Reached (emitBind consts g x type value).2 ls
      (as ++ ((bindArrayType type value).map byteSize).toList) ns := by
  unfold emitBind
  cases htype : bindArrayType type value with
  | some t =>
    have hdecl := h.declare x t
    simp only [Option.map_some, Option.toList_some]
    split
    · exact hdecl.of_memory (kept_memory.elements _ _ _ _)
    · exact hdecl
  | none =>
    simp only [Option.map_none, Option.toList_none, List.append_nil]
    cases value with
    | none => exact h.of_memory (kept_memory.wgLocal _ _ _)
    | expr e =>
      exact h.of_memory (kept_memory.trans (kept_memory.expr g e) (kept_memory.wgLocal _ _ _))
    | arrayLiteral t es => exact h.of_memory (kept_memory.wgLocal _ _ _)

mutual

theorem Reached.stmt (consts : List (String × Expr)) {g : Wg} {ls : List (List Char)}
    {as ns : List Nat} (h : Reached g ls as ns) : (s : Stmt) →
    Reached (emitStmt consts g s).2 (ls ++ literals s) (as ++ arraySizes s) (ns ++ slots s)
  | .bind x type value => by
    simpa only [emitStmt, literals, slots, arraySizes, List.append_nil] using h.bind x type value
  | .assign target op value => by
    simpa only [emitStmt, literals, slots, arraySizes, List.append_nil] using
      h.of_memory (kept_memory.assign g op value target)
  | .forLoop init cond incr body => by
    have hinit := Reached.stmt consts h init
    have hcond : Reached (emitCond consts (emitStmt consts g init).2 cond).2
        (ls ++ literals init) (as ++ arraySizes init) (ns ++ slots init) :=
      hinit.of_memory (kept_memory.cond _ cond)
    have hincr := Reached.stmt consts (Reached.stmts consts hcond body) incr
    simp only [List.append_assoc] at hincr
    simpa only [emitStmt, literals, slots, arraySizes, List.append_assoc] using hincr
  | .ifElse cond t e => by
    have hcond : Reached (emitExpr consts g cond).2 ls as ns := h.of_memory (kept_memory.expr g cond)
    have helse := Reached.stmts consts (Reached.stmts consts hcond t) e
    simp only [List.append_assoc] at helse
    simpa only [emitStmt, literals, slots, arraySizes] using helse
  | .expr e => by
    simp only [emitStmt, literals, slots, arraySizes, List.append_nil]
    cases hargs : printArgs e with
    | some args => simpa using h.printf args
    | none => simpa [literalsOf, slotsOf] using h
  | .null | .block _ | .brk | .cont | .ret | .other => by
    simpa only [emitStmt, literals, slots, arraySizes, List.append_nil] using h

theorem Reached.stmts (consts : List (String × Expr)) {g : Wg} {ls : List (List Char)}
    {as ns : List Nat} (h : Reached g ls as ns) : (ss : List Stmt) →
    Reached (emitStmts consts g ss).2 (ls ++ literalsAll ss) (as ++ arraySizesAll ss)
      (ns ++ slotsAll ss)
  | [] => by simpa only [emitStmts, literalsAll, slotsAll, arraySizesAll, List.append_nil] using h
  | s :: ss => by
    have hrest := Reached.stmts consts (Reached.stmt consts h s) ss
    simp only [List.append_assoc] at hrest
    simpa only [emitStmts, literalsAll, slotsAll, arraySizesAll] using hrest

end

end Reaching

theorem reached_generate (p : Program) : Reached (generate p).2 (literalsAll (entryStmts p))
    (arraySizesAll (entryStmts p)) (slotsAll (entryStmts p)) := by
  have h := Reached.stmts (constsOf p) reached_init (entryStmts p)
  simp only [List.nil_append] at h
  rw [generate_tables]
  exact h

/-! ## Disjointness -/

/-- What was placed in memory, a region for each object. -/
structure Separate (g : Wg) : Prop where
  literals : g.interned.Pairwise Disjoint
  arrays : (g.arrays.map Array.region).Pairwise Disjoint
  args_literals : ∀ r ∈ g.argBlocks, ∀ s ∈ g.interned, r.Disjoint s
  args_arrays : ∀ r ∈ g.argBlocks, ∀ s ∈ g.arrays.map Array.region, r.Disjoint s
  literals_arrays : ∀ r ∈ g.interned, ∀ s ∈ g.arrays.map Array.region, r.Disjoint s
  below : ∀ r ∈ g.argBlocks ++ g.interned ++ g.arrays.map Array.region, r.Below memorySize

/-- The bounds: 64 arguments if there are literals, 1984 arguments and 15360 bytes of literals if there
are arrays, and what is left of the memory. -/
structure Fits (p : Program) : Prop where
  args_literals : 0 < literalBytes p → maxArgs p ≤ 64
  args_arrays : 0 < arrayBytes p → maxArgs p ≤ 1984
  literals_arrays : 0 < arrayBytes p → literalBytes p ≤ 15360
  args : maxArgs p ≤ 32704
  literals : literalBytes p ≤ 261120
  arrays : arrayBytes p ≤ 245760

/-- The argument blocks lie one over the other, as long as the longest. -/
theorem forall_argBlocks (P : Region → Prop) (ns : List Nat)
    (hmono : ∀ m n, m ≤ n → P ⟨argsBase, 8 * n⟩ → P ⟨argsBase, 8 * m⟩) (hempty : P ⟨argsBase, 0⟩) :
    (∀ r ∈ ns.map fun n => (⟨argsBase, 8 * n⟩ : Region), P r) ↔ P ⟨argsBase, 8 * ns.foldr max 0⟩ := by
  induction ns with
  | nil => exact ⟨fun _ => hempty, fun _ => nofun⟩
  | cons n ns ih =>
    rw [List.map_cons, List.forall_mem_cons, ih, List.foldr_cons]
    rcases Nat.le_total n (ns.foldr max 0) with hle | hle
    · rw [Nat.max_eq_right hle]
      exact ⟨And.right, fun h => ⟨hmono _ _ hle h, h⟩⟩
    · rw [Nat.max_eq_left hle]
      exact ⟨And.left, fun h => ⟨h, hmono _ _ hle h⟩⟩

theorem argBlocks_disjoint (ns ms : List Nat) (b : Nat) :
    (∀ r ∈ ns.map fun n => (⟨argsBase, 8 * n⟩ : Region), ∀ s ∈ spans b ms, r.Disjoint s) ↔
      (0 < ns.foldr max 0 → 0 < ms.sum →
        argsBase + 8 * ns.foldr max 0 ≤ b ∨ b + ms.sum ≤ argsBase) := by
  have hblock (n : Nat) : (∀ s ∈ spans b ms, Disjoint ⟨argsBase, n⟩ s) ↔
      (0 < n → 0 < ms.sum → argsBase + n ≤ b ∨ b + ms.sum ≤ argsBase) := by
    have h := disjoint_spans argsBase b [n] ms
    simpa [spans] using h
  rw [forall_argBlocks fun r => ∀ s ∈ spans b ms, r.Disjoint s, hblock]
  · simp only [Nat.mul_pos_iff_of_pos_left (by omega : 0 < 8)]
  · intro m n hle h s hs x hx
    exact h s hs x ⟨hx.1, by have := hx.2; simp only at this ⊢; omega⟩
  · intro s _ x hx
    exact absurd hx.2 (Nat.not_lt.mpr hx.1)

theorem argBlocks_below (ns : List Nat) (m : Nat) :
    (∀ r ∈ ns.map fun n => (⟨argsBase, 8 * n⟩ : Region), r.Below m) ↔
      (0 < ns.foldr max 0 → argsBase + 8 * ns.foldr max 0 ≤ m) := by
  rw [forall_argBlocks fun r => r.Below m, below_iff]
  · simp only [Nat.mul_pos_iff_of_pos_left (by omega : 0 < 8)]
  · intro m n hle h x hx
    exact h x ⟨hx.1, by have := hx.2; simp only at this ⊢; omega⟩
  · intro x hx
    exact absurd hx.2 (Nat.not_lt.mpr hx.1)

/-- The regions are disjoint and in the memory exactly if the program keeps the bounds. -/
theorem disjoint_regions (p : Program) : Separate (generate p).2 ↔ Fits p := by
  have h := reached_generate p
  have hlits := argBlocks_disjoint (slotsAll (entryStmts p))
    ((literalsAll (entryStmts p)).map fun l => (unescape l).length) stringsBase
  have harrs := argBlocks_disjoint (slotsAll (entryStmts p))
    ((arraySizesAll (entryStmts p)).take maxArrays) arraysBase
  have hcross := disjoint_spans stringsBase arraysBase
    ((literalsAll (entryStmts p)).map fun l => (unescape l).length)
    ((arraySizesAll (entryStmts p)).take maxArrays)
  have hargs := argBlocks_below (slotsAll (entryStmts p)) memorySize
  have hlits_below := below_spans stringsBase memorySize
    ((literalsAll (entryStmts p)).map fun l => (unescape l).length)
  have harrs_below := below_spans arraysBase memorySize
    ((arraySizesAll (entryStmts p)).take maxArrays)
  rw [← h.argBlocks, ← h.interned] at hlits
  rw [← h.argBlocks, ← h.arrays] at harrs
  rw [← h.interned, ← h.arrays] at hcross
  rw [← h.argBlocks] at hargs
  rw [← h.interned] at hlits_below
  rw [← h.arrays] at harrs_below
  simp only [← literalBytes.eq_1, ← arrayBytes.eq_1, ← maxArgs.eq_1] at *
  simp only [argsBase, stringsBase, arraysBase, memorySize] at *
  constructor
  · intro hs
    have h1 := hlits.mp hs.args_literals
    have h2 := harrs.mp hs.args_arrays
    have h3 := hcross.mp hs.literals_arrays
    have hbelow := hs.below
    simp only [List.forall_mem_append] at hbelow
    have h4 := hargs.mp hbelow.1.1
    have h5 := hlits_below.mp hbelow.1.2
    have h6 := harrs_below.mp hbelow.2
    exact ⟨by omega, by omega, by omega, by omega, by omega, by omega⟩
  · intro hf
    obtain ⟨h1, h2, h3, h4, h5, h6⟩ := hf
    refine ⟨?_, ?_, hlits.mpr (by omega), harrs.mpr (by omega), hcross.mpr (by omega), ?_⟩
    · rw [h.interned]
      exact pairwise_spans _ _
    · rw [h.arrays]
      exact pairwise_spans _ _
    · simp only [List.forall_mem_append]
      exact ⟨⟨hargs.mpr (by omega), hlits_below.mpr (by omega)⟩, harrs_below.mpr (by omega)⟩

/-- `main :: system() { fmt.printf("%d", 1, .., 1) }` with 65 arguments, and its `#run`. -/
def longPrintf : Program :=
  [.kernel "main" .system 0 [.expr (.field "printf"
      (.string .charArray ['%', 'd'] :: List.replicate 65 (.literal (.int 32 true) ['1'])))],
    .run (.run "main")]

/-- The last argument is written over the format. -/
theorem not_disjoint_regions : ¬∀ p, Separate (generate p).2 := by
  intro h
  have hblock : (⟨512, 520⟩ : Region) ∈ (generate longPrintf).2.argBlocks := by decide +kernel
  have hfmt : (⟨1024, 2⟩ : Region) ∈ (generate longPrintf).2.interned := by decide +kernel
  exact (h longPrintf).args_literals _ hblock _ hfmt 1024
    ⟨by decide, by decide⟩ ⟨by decide, by decide⟩

end Arche.Codegen.WasmGen
