import Arche.Semantic.ConstEval
import Arche.Codegen.ShapeIdentity

/-!
# The sizes of a pool

`[capacity]P(init)` is read three times. Semantic analysis takes a literal by `atoi`, folds
any other capacity, and takes any other initial count as `0`; the bounds prover and the
storage requirements rely on what it records. Lowering folds both and stores decimal
literals in the HIR. Code generation takes the capacity of the first pool of the canonical
shape, by `atoi` of the stored literal.

1. `sizes_agree_iff`: the three agree, and the initial count is within the capacity, exactly
   if a literal is one that `atoi` reads, an initial count that is no literal is `0`, the
   initial count is within the capacity as written, and no earlier pool has the canonical
   shape with another capacity.
2. `not_sizes_agree`: `[0x10]P(2)` has capacity `0` and initial count `2` for the semantic
   pass, and capacity `16` in the generated code.
-/

namespace Arche.Codegen.PoolSizes

open Arche.Lib Arche.Semantic Arche.Semantic.ConstEval

/-! ## `atoi` -/

/-- The value of the decimal digits at the start of a text. -/
def decimalStart : List Char → Nat → Nat
  | [], v => v
  | c :: cs, v => if c.isDigit then decimalStart cs (10 * v + (c.toNat - '0'.toNat)) else v

/-- `atoi`: `strtol` with base 10, cut to an `int`. -/
def atoi : List Char → Int
  | '-' :: cs => i32.wrap (saturate (-decimalStart cs 0))
  | '+' :: cs => i32.wrap (saturate (decimalStart cs 0))
  | cs => i32.wrap (saturate (decimalStart cs 0))

/-! ## The declarations -/

/-- `[capacity]P(init) { … }` with its archetype, whether it is a datasheet requirement, and the number
of columns it gives values to. -/
structure PoolDecl where
  shape : ShapeIdentity.Shape
  isRequirement : Bool
  capacity : ConstEval.Expr
  initLength : Option ConstEval.Expr
  inits : Nat

structure Program where
  consts : ConstEval.Program
  shapes : ShapeIdentity.Program
  pools : List PoolDecl

/-- The pools that allocate. -/
def Program.allocs (P : Program) : List PoolDecl := P.pools.filter fun d => !d.isRequirement

/-! ## Semantic analysis -/

/-- `static_pool_count` and `static_init_count` of `decl_summary_from_node`. -/
def literalCount (otherwise : Int) : ConstEval.Expr → Int
  | .lit text _ => atoi text
  | _ => otherwise

/-- The capacity `analyze_static_decl` records; `none` is an error. -/
def Program.recordedCapacity (P : Program) (d : PoolDecl) : Option Int :=
  let count := literalCount (-1) d.capacity
  if count < 0 then (tryConstInt P.consts d.capacity).filter (0 ≤ ·) else some count

/-- The initial count it records. -/
def recordedInit (d : PoolDecl) : Int :=
  match d.initLength with
  | some e => literalCount 0 e
  | none => 0

/-- The checks of `analyze_static_decl`: one pool to a signature, a constant capacity, and an initial
count if there are values. -/
structure Program.Accepted (P : Program) : Prop where
  unique : (P.allocs.map fun d => ShapeIdentity.computeShapeSignature d.shape).Nodup
  capacity : ∀ d ∈ P.allocs, (P.recordedCapacity d).isSome = true
  init : ∀ d ∈ P.allocs, 0 < d.inits → d.initLength.isSome = true

/-! ## Lowering -/

/-- A size in the HIR. -/
inductive HirSize
  | literal (lexeme : List Char)
  | other (e : ConstEval.Expr)

/-- `lower_const_or_expr`. -/
def Program.lowerConstOrExpr (P : Program) (e : ConstEval.Expr) : HirSize :=
  match tryConstInt P.consts e with
  | some folded => .literal (decimal folded)
  | none =>
    match e with
    | .lit text _ => .literal text
    | e => .other e

/-- The integer a size stands for. -/
def HirSize.value : HirSize → Option Int
  | literal lexeme => archeIntLit lexeme
  | other _ => none

def Program.hirCapacity (P : Program) (d : PoolDecl) : Option Int := (P.lowerConstOrExpr d.capacity).value

/-- Without an initial count the HIR has none. -/
def Program.hirInit (P : Program) (d : PoolDecl) : Option Int :=
  match d.initLength with
  | some e => (P.lowerConstOrExpr e).value
  | none => some 0

/-! ## Code generation -/

/-- The capacity a declaration has for the shape. -/
def Program.allocates (P : Program) (shape : ShapeIdentity.Shape) (s : PoolDecl) : Option Int :=
  if s.isRequirement then none
  else if P.shapes.canonicalArchetypeDecl s.shape = P.shapes.canonicalArchetypeDecl shape then
    match P.lowerConstOrExpr s.capacity with
    | .literal lexeme => some (atoi lexeme)
    | .other _ => none
  else none

def Program.getArchStaticCapacity (P : Program) (shape : ShapeIdentity.Shape) : Int :=
  (P.pools.findSome? (P.allocates shape)).getD 0

/-- The rows `codegen_emit_alloc_init` makes room for: those of the static struct, or of the memory it
asks for. -/
def Program.allocatedCapacity (P : Program) (d : PoolDecl) : Option Int :=
  let staticCap := P.getArchStaticCapacity d.shape
  if staticCap > 0 then some staticCap else P.hirCapacity d

/-- The `count` it stores. -/
def Program.allocatedInit (P : Program) (d : PoolDecl) : Option Int :=
  match d.initLength with
  | some e => (P.lowerConstOrExpr e).value
  | none => if d.inits > 0 then P.hirCapacity d else some 0

/-! ## Agreement -/

/-- The three stages have the same sizes for the pool, and these fit. -/
def Program.Agree (P : Program) (d : PoolDecl) : Prop :=
  ∃ capacity, P.recordedCapacity d = some capacity ∧ P.hirCapacity d = some capacity ∧
    P.allocatedCapacity d = some capacity ∧ P.hirInit d = some (recordedInit d) ∧
    P.allocatedInit d = some (recordedInit d) ∧ 0 ≤ recordedInit d ∧ recordedInit d ≤ capacity

/-- The sizes are constants: the capacity folds to `c` and the initial count, if there is one, to
`n`. -/
structure Program.Sizes (P : Program) (d : PoolDecl) (c n : Int) : Prop where
  capacity : tryConstInt P.consts d.capacity = some c
  init : d.initLength.elim (n = 0) fun e => tryConstInt P.consts e = some n

/-- A literal capacity that `atoi` takes for a count is read as the value it has. -/
def CapacityRead (capacity : Int) : ConstEval.Expr → Prop
  | .lit text _ => 0 ≤ atoi text → atoi text = capacity
  | _ => True

/-- An initial count is a literal that `atoi` reads as the value it has, or it is `0`. -/
def InitRead (init : Int) : Option ConstEval.Expr → Prop
  | some (.lit text _) => atoi text = init
  | some _ => init = 0
  | none => True

/-- The first pool of the canonical shape. -/
def Program.firstPool (P : Program) (shape : ShapeIdentity.Shape) : Option PoolDecl :=
  P.allocs.find? fun s =>
    decide (P.shapes.canonicalArchetypeDecl s.shape = P.shapes.canonicalArchetypeDecl shape)

/-- What the sizes as written have to be. -/
structure Program.Plain (P : Program) (d : PoolDecl) (c n : Int) : Prop where
  capacity : CapacityRead c d.capacity
  init : InitRead n d.initLength
  bounds : 0 ≤ n ∧ n ≤ c
  shared : ∀ s k, P.firstPool d.shape = some s → tryConstInt P.consts s.capacity = some k → 0 < k → k = c

/-! ## Decimal texts -/

theorem digitIn_of_isDigit {c : Char} (h : c.isDigit = true) :
    digitIn 10 c = some (c.toNat - '0'.toNat) := by
  have hread : strtolDigits 10 [c] 0 = _ := strtolDigits_ten (by simpa using h) 0
  obtain ⟨d, hd, hrest⟩ := Option.bind_eq_some_iff.mp hread
  rw [strtolDigits, Option.some.injEq, Nat.ofDigitChars_cons, Nat.ofDigitChars_nil] at hrest
  rw [hd, Option.some.injEq]
  omega

theorem litDigits_ten {cs : List Char} (hcs : ∀ c ∈ cs, c.isDigit = true) {any : Bool}
    (hany : any = true ∨ cs ≠ []) (v : Nat) :
    litDigits 10 cs any (v % 2 ^ 64) = some (decimalStart cs v % 2 ^ 64) := by
  induction cs generalizing any v with
  | nil =>
    rcases hany with rfl | h
    · rfl
    · exact absurd rfl h
  | cons c cs ih =>
    have hdigit := hcs c List.mem_cons_self
    have hne : c ≠ '_' := by
      rintro rfl
      cases hdigit
    have hmod : (v % 2 ^ 64 * 10 + (c.toNat - '0'.toNat)) % 2 ^ 64 =
        (10 * v + (c.toNat - '0'.toNat)) % 2 ^ 64 := by
      omega
    rw [litDigits, digitIn_of_isDigit hdigit, Option.bind_some, hmod, decimalStart, if_pos hdigit]
    · exact ih (fun c hc => hcs c (List.mem_cons_of_mem _ hc)) (.inl rfl) _
    · exact fun h => hne h

theorem toDigits_isDigit {n : Nat} : ∀ c ∈ Nat.toDigits 10 n, c.isDigit = true :=
  fun _ hc => Nat.isDigit_of_mem_toDigits (by omega) (by omega) hc

theorem decimalStart_toDigits (n : Nat) : decimalStart (Nat.toDigits 10 n) 0 = n := by
  have hdigits : ∀ (cs : List Char) (v : Nat), (∀ c ∈ cs, c.isDigit = true) →
      decimalStart cs v = Nat.ofDigitChars 10 cs v := by
    intro cs
    induction cs with
    | nil => exact fun v _ => Nat.ofDigitChars_nil.symm
    | cons c cs ih =>
      intro v hcs
      rw [decimalStart, if_pos (hcs c List.mem_cons_self), Nat.ofDigitChars_cons]
      exact ih _ fun c hc => hcs c (List.mem_cons_of_mem _ hc)
  rw [hdigits _ _ toDigits_isDigit, Nat.ofDigitChars_ten_toDigits]

/-- A text that starts with a digit has no sign. -/
theorem signed_of_isDigit {read : List Char → Option Nat} {pos neg : Int → Int} {c : Char}
    {cs : List Char} (h : c.isDigit = true) :
    signed read pos neg (c :: cs) = (read (c :: cs)).map fun v : Nat => pos v := by
  unfold signed
  split
  · next heq =>
    rw [(List.cons.inj heq).1] at h
    cases h
  · next heq =>
    rw [(List.cons.inj heq).1] at h
    cases h
  · rfl

theorem atoi_of_isDigit {c : Char} {cs : List Char} (h : c.isDigit = true) :
    atoi (c :: cs) = i32.wrap (saturate (decimalStart (c :: cs) 0)) := by
  unfold atoi
  split
  · next heq =>
    rw [(List.cons.inj heq).1] at h
    cases h
  · next heq =>
    rw [(List.cons.inj heq).1] at h
    cases h
  · rfl

theorem litUnsigned_of_isDigit {cs : List Char} (hcs : ∀ c ∈ cs, c.isDigit = true) (hne : cs ≠ []) :
    litUnsigned cs = some (decimalStart cs 0 % 2 ^ 64) := by
  unfold litUnsigned
  split
  · exact absurd (hcs 'x' (by simp)) (by decide)
  · exact absurd (hcs 'X' (by simp)) (by decide)
  · exact absurd (hcs 'b' (by simp)) (by decide)
  · exact absurd (hcs 'B' (by simp)) (by decide)
  · exact absurd (hcs 'o' (by simp)) (by decide)
  · exact absurd (hcs 'O' (by simp)) (by decide)
  · exact litDigits_ten hcs (.inr hne) 0

theorem i32_holds_iff {x : Int} : i32.Holds x ↔ -2 ^ 31 ≤ x ∧ x < 2 ^ 31 := by
  rw [Word.holds_iff]
  simp only [i32, if_true]
  omega

/-- What lowering stores is read back by both readers. -/
theorem decimal_read {x : Int} (hx : i32.Holds x) :
    atoi (decimal x) = x ∧ archeIntLit (decimal x) = some x := by
  obtain ⟨hlo, hhi⟩ := i32_holds_iff.mp hx
  have hstart := decimalStart_toDigits x.natAbs
  have hlit := litUnsigned_of_isDigit (toDigits_isDigit (n := x.natAbs)) Nat.toDigits_ne_nil
  have hlong : long.Holds x := long_holds_iff.mpr ⟨by omega, by omega⟩
  rw [hstart, Nat.mod_eq_of_lt (by omega)] at hlit
  unfold decimal
  split
  · next hneg =>
    have hsat : saturate (-(x.natAbs : Int)) = x := by
      unfold saturate
      omega
    have hwrap : long.wrap (-long.wrap x.natAbs) = x := by
      rw [Word.wrap_neg, show -(x.natAbs : Int) = x by omega]
      exact hlong
    refine ⟨?_, ?_⟩
    · rw [atoi, hstart, hsat]
      exact hx
    · show (litUnsigned _).map (fun v : Nat => long.wrap (-long.wrap v)) = some x
      rw [hlit, Option.map_some, hwrap]
  · next hneg =>
    have hcast : (x.natAbs : Int) = x := by omega
    have hsat : saturate (x.natAbs : Int) = x := by
      unfold saturate
      omega
    obtain ⟨c, cs, hcs⟩ := List.exists_cons_of_ne_nil (Nat.toDigits_ne_nil (n := x.natAbs) (b := 10))
    have hdigit : c.isDigit = true := toDigits_isDigit c (hcs ▸ List.mem_cons_self)
    rw [hcs] at hstart hlit ⊢
    refine ⟨?_, ?_⟩
    · rw [atoi_of_isDigit hdigit, hstart, hsat]
      exact hx
    · rw [archeIntLit, signed_of_isDigit hdigit, hlit, Option.map_some, hcast]
      exact congrArg some hlong

/-- A literal of decimal digits is read alike by both, up to the range of `long`: it meets what
`Program.Plain` asks of a literal. -/
theorem atoi_eq_of_digits {cs : List Char} (hcs : ∀ c ∈ cs, c.isDigit = true) (hne : cs ≠ [])
    (hrange : decimalStart cs 0 < 2 ^ 63) : (archeIntLit cs).map i32.wrap = some (atoi cs) := by
  obtain ⟨c, rest, rfl⟩ := List.exists_cons_of_ne_nil hne
  have hdigit := hcs c List.mem_cons_self
  have hlong : long.Holds (decimalStart (c :: rest) 0) := long_holds_iff.mpr ⟨by omega, by omega⟩
  have hsat : saturate (decimalStart (c :: rest) 0 : Int) = decimalStart (c :: rest) 0 := by
    unfold saturate
    omega
  rw [archeIntLit, signed_of_isDigit hdigit, litUnsigned_of_isDigit hcs hne, Nat.mod_eq_of_lt (by omega),
    atoi_of_isDigit hdigit, hsat, Option.map_some, Option.map_some]
  exact congrArg (fun x => some (i32.wrap x)) hlong

/-! ## The stages -/

section Stages

variable {P : Program} {d : PoolDecl} {c n : Int}

theorem holds_of_tryConstInt {C : ConstEval.Program} {e : ConstEval.Expr} {v : Int}
    (h : tryConstInt C e = some v) : i32.Holds v := by
  obtain ⟨x, -, rfl⟩ := Option.map_eq_some_iff.mp h
  exact i32.holds_wrap x

theorem lowerConstOrExpr_eq {e : ConstEval.Expr} {v : Int} (h : tryConstInt P.consts e = some v) :
    P.lowerConstOrExpr e = .literal (decimal v) := by
  unfold Program.lowerConstOrExpr
  rw [h]

theorem value_lowerConstOrExpr {e : ConstEval.Expr} {v : Int} (h : tryConstInt P.consts e = some v) :
    (P.lowerConstOrExpr e).value = some v := by
  rw [lowerConstOrExpr_eq h]
  exact (decimal_read (holds_of_tryConstInt h)).2

theorem recordedCapacity_eq_iff (hsome : (P.recordedCapacity d).isSome = true)
    (hc : tryConstInt P.consts d.capacity = some c) :
    P.recordedCapacity d = some c ↔ CapacityRead c d.capacity := by
  have hfold (hneg : literalCount (-1) d.capacity < 0) : P.recordedCapacity d = some c := by
    have heq : P.recordedCapacity d = (some c).filter (0 ≤ ·) := by
      rw [Program.recordedCapacity, hc]
      exact if_pos hneg
    rw [heq] at hsome ⊢
    obtain ⟨v, hv⟩ := Option.isSome_iff_exists.mp hsome
    rw [hv, (Option.filter_eq_some_iff.mp hv).1]
  by_cases hneg : literalCount (-1) d.capacity < 0
  · refine ⟨fun _ => ?_, fun _ => hfold hneg⟩
    unfold CapacityRead
    split
    · next heq =>
      intro hpos
      rw [heq] at hneg
      exact absurd hneg (not_lt.mpr hpos)
    · trivial
  · have heq : P.recordedCapacity d = some (literalCount (-1) d.capacity) := if_neg hneg
    rw [heq, Option.some.injEq]
    unfold literalCount CapacityRead at *
    split
    · next htext =>
      rw [htext] at hneg
      exact ⟨fun h _ => h, fun h => h (not_lt.mp hneg)⟩
    · next hother =>
      split at hneg
      · next heq => exact absurd heq (hother _ _)
      · exact absurd (by decide) hneg

theorem recordedInit_eq_iff (hn : d.initLength.elim (n = 0) fun e => tryConstInt P.consts e = some n) :
    recordedInit d = n ↔ InitRead n d.initLength := by
  unfold recordedInit InitRead
  cases hinit : d.initLength with
  | none =>
    rw [hinit] at hn
    exact ⟨fun _ => trivial, fun _ => hn.symm⟩
  | some e =>
    cases e with
    | lit text ty => exact Iff.rfl
    | _ => exact eq_comm

theorem allocates_eq {s : PoolDecl} (hreq : s.isRequirement = false)
    (hc : tryConstInt P.consts s.capacity = some c) (shape : ShapeIdentity.Shape) :
    P.allocates shape s =
      if P.shapes.canonicalArchetypeDecl s.shape = P.shapes.canonicalArchetypeDecl shape then some c
      else none := by
  rw [Program.allocates, if_neg (by rw [hreq]; decide), lowerConstOrExpr_eq hc]
  simp only [(decimal_read (holds_of_tryConstInt hc)).1]

/-- With constant sizes the first pool of the canonical shape decides. -/
theorem findSome_allocates (shape : ShapeIdentity.Shape) (pools : List PoolDecl)
    (hconst : ∀ s ∈ pools.filter fun d => !d.isRequirement, ∃ c n, P.Sizes s c n) :
    pools.findSome? (P.allocates shape) =
      ((pools.filter fun d => !d.isRequirement).find? fun s =>
        decide (P.shapes.canonicalArchetypeDecl s.shape = P.shapes.canonicalArchetypeDecl shape)).bind
        fun s => tryConstInt P.consts s.capacity := by
  induction pools with
  | nil => rfl
  | cons s rest ih =>
    rw [List.findSome?_cons]
    cases hreq : s.isRequirement with
    | true =>
      rw [List.filter_cons_of_neg (by simp [hreq])] at hconst ⊢
      rw [Program.allocates, if_pos hreq]
      exact ih hconst
    | false =>
      rw [List.filter_cons_of_pos (by simp [hreq])] at hconst ⊢
      obtain ⟨c, n, hs⟩ := hconst s List.mem_cons_self
      rw [allocates_eq hreq hs.capacity, List.find?_cons]
      by_cases hshape : P.shapes.canonicalArchetypeDecl s.shape = P.shapes.canonicalArchetypeDecl shape
      · rw [if_pos hshape, decide_eq_true hshape, Option.bind_some, hs.capacity]
      · rw [if_neg hshape, decide_eq_false hshape]
        exact ih fun t ht => hconst t (List.mem_cons_of_mem s ht)

theorem allocatedCapacity_eq_iff (hconst : ∀ s ∈ P.allocs, ∃ c n, P.Sizes s c n)
    (hc : tryConstInt P.consts d.capacity = some c) :
    P.allocatedCapacity d = some c ↔
      ∀ s k, P.firstPool d.shape = some s → tryConstInt P.consts s.capacity = some k → 0 < k → k = c := by
  have hhir : P.hirCapacity d = some c := value_lowerConstOrExpr hc
  have hstatic : P.getArchStaticCapacity d.shape =
      ((P.firstPool d.shape).bind fun s => tryConstInt P.consts s.capacity).getD 0 :=
    congrArg (Option.getD · 0) (findSome_allocates d.shape P.pools hconst)
  unfold Program.allocatedCapacity
  rw [hstatic, hhir]
  cases hfirst : P.firstPool d.shape with
  | none => simp
  | some s =>
    obtain ⟨k, _, hs⟩ := hconst s (List.mem_of_find?_eq_some hfirst)
    simp only [Option.bind_some, hs.capacity, Option.getD_some]
    constructor
    · intro h s' k' hs' hk' hpos
      cases hs'
      cases hs.capacity.symm.trans hk'
      rw [if_pos hpos] at h
      exact Option.some.inj h
    · intro h
      split
      · next hpos => rw [h s k rfl hs.capacity hpos]
      · rfl

/-- The initial count in the HIR and in the generated code. -/
theorem hirInit_eq (hacc : P.Accepted) (hd : d ∈ P.allocs)
    (hn : d.initLength.elim (n = 0) fun e => tryConstInt P.consts e = some n) :
    P.hirInit d = some n ∧ P.allocatedInit d = some n := by
  unfold Program.hirInit Program.allocatedInit
  cases hinit : d.initLength with
  | none =>
    rw [hinit] at hn
    have hn : n = 0 := hn
    have hnone : ¬ d.inits > 0 := fun hpos => by
      have hsome := hacc.init d hd hpos
      rw [hinit] at hsome
      cases hsome
    simp only [if_neg hnone, hn, and_self]
  | some e =>
    rw [hinit] at hn
    exact ⟨value_lowerConstOrExpr hn, value_lowerConstOrExpr hn⟩

end Stages

/-- The stages agree on the sizes of a pool exactly if these are plain. -/
theorem sizes_agree_iff (P : Program) (hacc : P.Accepted)
    (hconst : ∀ s ∈ P.allocs, ∃ c n, P.Sizes s c n) (d : PoolDecl) (hd : d ∈ P.allocs) (c n : Int)
    (hs : P.Sizes d c n) : P.Agree d ↔ P.Plain d c n := by
  have hrecorded := recordedCapacity_eq_iff (hacc.capacity d hd) hs.capacity
  have hallocated := allocatedCapacity_eq_iff hconst hs.capacity
  have hinit : recordedInit d = n ↔ InitRead n d.initLength := recordedInit_eq_iff hs.init
  have hcap : P.hirCapacity d = some c := value_lowerConstOrExpr hs.capacity
  obtain ⟨hhir, halloc⟩ := hirInit_eq hacc hd hs.init
  constructor
  · rintro ⟨c', hrec, hhirc, hallocc, hhirn, -, hlo, hhi⟩
    cases hcap.symm.trans hhirc
    have hn : recordedInit d = n := Option.some.inj (hhirn.symm.trans hhir)
    rw [hn] at hlo hhi
    exact ⟨hrecorded.mp hrec, hinit.mp hn, ⟨hlo, hhi⟩, hallocated.mp hallocc⟩
  · rintro ⟨hread, hreadInit, hbounds, hshared⟩
    have hn := hinit.mpr hreadInit
    rw [Program.Agree, hn]
    exact ⟨c, hrecorded.mpr hread, hcap, hallocated.mpr hshared, hhir, halloc, hbounds.1, hbounds.2⟩

/-- The archetype of one column. -/
def oneColumn : ShapeIdentity.Shape := ⟨[⟨['a'], .array, by decide⟩], by decide⟩

/-- `[capacity]P(init)` with two literals. -/
def literalPool (capacity init : List Char) : PoolDecl where
  shape := oneColumn
  isRequirement := false
  capacity := .lit capacity (.int i32)
  initLength := some (.lit init (.int i32))
  inits := 0

/-- A program of this one pool. -/
def literalProgram (capacity init : List Char) : Program where
  consts := ⟨[], [], fun _ _ _ => none⟩
  shapes := ⟨[], [oneColumn], []⟩
  pools := [literalPool capacity init]

theorem literalProgram_accepted {capacity init : List Char} (h : ((literalProgram capacity
    init).recordedCapacity (literalPool capacity init)).isSome = true) :
    (literalProgram capacity init).Accepted := by
  refine ⟨List.nodup_singleton _, fun s hs => ?_, fun s hs _ => ?_⟩
  · rw [List.mem_singleton.mp hs]
    exact h
  · rw [List.mem_singleton.mp hs]
    rfl

/-- `[16]P(2)`. -/
theorem sizes_agree_decimal :
    (literalProgram ['1', '6'] ['2']).Agree (literalPool ['1', '6'] ['2']) := by
  have hsizes : (literalProgram ['1', '6'] ['2']).Sizes (literalPool ['1', '6'] ['2']) 16 2 :=
    ⟨by decide, show tryConstInt _ _ = some 2 by decide⟩
  have hconst : ∀ s ∈ (literalProgram ['1', '6'] ['2']).allocs,
      ∃ c n, (literalProgram ['1', '6'] ['2']).Sizes s c n := by
    intro s hs
    rw [List.mem_singleton.mp hs]
    exact ⟨16, 2, hsizes⟩
  have hacc : (literalProgram ['1', '6'] ['2']).Accepted := literalProgram_accepted (by decide)
  refine (sizes_agree_iff _ hacc hconst _ List.mem_cons_self 16 2 hsizes).mpr ⟨?_, ?_, by decide, ?_⟩
  · show 0 ≤ atoi ['1', '6'] → atoi ['1', '6'] = 16
    decide
  · show atoi ['2'] = 2
    decide
  · intro s k hs hk _
    rw [List.mem_singleton.mp (List.mem_of_find?_eq_some hs)] at hk
    exact Option.some.inj (hk.symm.trans hsizes.capacity)

/-- `[0x10]P(2)`: the semantic pass records capacity `0`. -/
theorem not_sizes_agree : ¬ ∀ (P : Program) (d : PoolDecl), P.Accepted → d ∈ P.allocs → P.Agree d := by
  intro hall
  have hacc : (literalProgram ['0', 'x', '1', '0'] ['2']).Accepted :=
    literalProgram_accepted (by decide)
  obtain ⟨c, hrecorded, hhir, -⟩ := hall _ (literalPool ['0', 'x', '1', '0'] ['2']) hacc List.mem_cons_self
  have hzero : (literalProgram ['0', 'x', '1', '0'] ['2']).recordedCapacity
      (literalPool ['0', 'x', '1', '0'] ['2']) = some 0 := by decide
  have hsixteen : (literalProgram ['0', 'x', '1', '0'] ['2']).hirCapacity
      (literalPool ['0', 'x', '1', '0'] ['2']) = some 16 := by decide
  cases hzero.symm.trans hrecorded
  cases hsixteen.symm.trans hhir

end Arche.Codegen.PoolSizes
