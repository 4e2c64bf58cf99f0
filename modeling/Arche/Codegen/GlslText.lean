import Mathlib.Data.List.Basic

/-!
# The text of a compute shader

`gpu_glsl_build_src` puts a shader together with `gb_putf`: first the body of the map into a buffer
of its own, then the header, the declarations, the body as one piece, and the footer.

* `pieces` are the texts that are given to `gb_putf`, in their order.
* `gbPutf` prints into a staging buffer of 1024 bytes and copies from there as many bytes as the
  whole piece has. It is `none` if they do not all lie in the staging buffer.
* `shaderText` is the shader with the whole text of its body.

`build_exact_iff`: for an accepted map the source is the shader text if and only if the body and the
lines with names in them are shorter than 1024 bytes.
-/

namespace Arche.Codegen.Glsl

/-- A character is a byte. -/
abbrev Text := List Char

/-! ## HIR -/

/-- `Operator`, in its order. -/
inductive Operator
  | none | add | sub | mul | div | mod | eq | neq | lt | gt | lte | gte | and | or | fmap
deriving DecidableEq

inductive UnaryOp
  | neg | not
deriving DecidableEq

/-- `other` is an expression that is missing, or of another kind. -/
inductive Expr
  | name (n : Text)
  | literal (lexeme : Option Text)
  | unary (op : UnaryOp) (operand : Expr)
  | binary (op : Operator) (left right : Expr)
  | call (callee : Option Text) (args : List Expr)
  | other

/-- `absent` is `NULL`, `other` a statement of another kind. -/
inductive Stmt
  | assign (target : Expr) (op : Operator) (value : Expr)
  | block (stmts : List Stmt)
  | bind (names : List Text) (value : Option Expr)
  | cond (cond : Expr) (thenBody elseBody : List Stmt)
  | absent
  | other

inductive HirType
  | float
  | int (width : Nat) (signed : Bool)
  | other

structure Field where
  name : Text
  isColumn : Bool
  type : HirType

structure ArchetypeDecl where
  name : Text
  fields : List Field

structure KernelDecl where
  name : Text
  params : List Text
  stmts : List Stmt

/-- A constant with its value. -/
structure ConstDecl where
  name : Text
  value : Expr

/-! ## The emitter -/

/-- What `b` has been given, `b->ok`, and `ec->locals`. -/
structure Out where
  pieces : List Text
  ok : Bool
  locals : List Text

def Out.put (o : Out) (s : Text) : Out := { o with pieces := o.pieces ++ [s] }

def Out.fail (o : Out) : Out := { o with ok := false }

structure EmitCtx where
  params : List Text
  consts : List ConstDecl
  ety : Text
  isFloat : Bool

def binopGlsl : Operator → Option Text
  | .add => some ['+']
  | .sub => some ['-']
  | .mul => some ['*']
  | .div => some ['/']
  | .eq => some ['=', '=']
  | .neq => some ['!', '=']
  | .lt => some ['<']
  | .gt => some ['>']
  | .lte => some ['<', '=']
  | .gte => some ['>', '=']
  | _ => none

def opIsCompare : Operator → Bool
  | .eq | .neq | .lt | .gt | .lte | .gte => true
  | _ => false

/-- `strtol(lx, NULL, 0) != 0`. -/
def strtolNonzero (lx : Text) : Bool :=
  let isHex := fun c : Char =>
    c.isDigit || ('a' ≤ c && c ≤ 'f') || ('A' ≤ c && c ≤ 'F')
  match lx with
  | '0' :: x :: c :: cs =>
    if (x = 'x' ∨ x = 'X') ∧ isHex c then ((c :: cs).takeWhile isHex).any (· ≠ '0')
    else ((x :: c :: cs).takeWhile fun c => '0' ≤ c && c ≤ '7').any (· ≠ '0')
  | '0' :: cs => (cs.takeWhile fun c => '0' ≤ c && c ≤ '7').any (· ≠ '0')
  | cs => (cs.takeWhile Char.isDigit).any (· ≠ '0')

section Emit

variable (ec : EmitCtx)

/-- `gpu_const_lexeme`. -/
def gpuConstLexeme (name : Text) : Option Text :=
  match ec.consts.find? fun d => d.name == name with
  | some ⟨_, .literal lexeme⟩ => lexeme
  | _ => none

/-- `gpu_nonzero_int_const`. -/
def gpuNonzeroIntConst (e : Expr) : Bool :=
  let lx :=
    match e with
    | .literal lexeme => lexeme
    | .name n => gpuConstLexeme ec n
    | _ => none
  match lx with
  | none => false
  | some lx => !(lx.contains '.') && strtolNonzero lx

/-- `emit_scalar_lexeme`. -/
def emitScalarLexeme (lx : Option Text) (o : Out) : Out :=
  match lx with
  | none => o.fail
  | some lx =>
    let frac := lx.contains '.' || lx.contains 'e' || lx.contains 'E'
    if ec.isFloat then if frac then o.put lx else (o.put lx).put ['.', '0']
    else if frac then o.fail
    else o.put lx

/-- The operator of a binary expression or of a compound assignment, `none` where it is refused. -/
def glslOp (op : Operator) (right : Expr) : Option Text :=
  match if op = .mod then some ['%'] else binopGlsl op with
  | none => none
  | some s =>
    if op = .mod ∧ ec.isFloat then none
    else if (op = .div ∨ op = .mod) ∧ !ec.isFloat ∧ !gpuNonzeroIntConst ec right then none
    else some s

def selectName : Text := "select".toList

def sqrtName : Text := "sqrt".toList

mutual

/-- `emit_expr`. -/
def emitExpr (e : Expr) (wantBool : Bool) (o : Out) : Out :=
  if !o.ok then o.fail
  else
    match e with
    | .name n =>
      if ec.params.contains n then o.put (n ++ ['[', 'i', ']'])
      else if o.locals.contains n then o.put n
      else emitScalarLexeme ec (gpuConstLexeme ec n) o
    | .literal lexeme => emitScalarLexeme ec (some (lexeme.getD ['0'])) o
    | .unary _ operand =>
      (emitExpr operand false (o.put ['(', '-', '('])).put [')', ')']
    | .binary op left right =>
      match glslOp ec op right with
      | none => o.fail
      | some s =>
        let cast := opIsCompare op && !wantBool
        let o := if cast then o.put (ec.ety ++ ['(']) else o
        let o := emitExpr left false (o.put ['('])
        let o := emitExpr right false (o.put (' ' :: s ++ [' ']))
        let o := o.put [')']
        if cast then o.put [')'] else o
    | .call callee args =>
      match callee, emitters args with
      | some fn, [a] =>
        if fn = sqrtName then (a false (o.put ['s', 'q', 'r', 't', '('])).put [')'] else o.fail
      | some fn, [a, b, c] =>
        if fn = selectName then
          let o := a true (o.put ['(', '('])
          let o := b false (o.put [')', ' ', '?', ' ', '('])
          let o := c false (o.put [')', ' ', ':', ' ', '('])
          o.put [')', ')']
        else o.fail
      | _, _ => o.fail
    | .other => o.fail

/-- `emit_expr` of the arguments of a call. -/
def emitters : List Expr → List (Bool → Out → Out)
  | [] => []
  | e :: es => (fun wantBool o => emitExpr e wantBool o) :: emitters es

end

/-- `emit_assign`. -/
def emitAssign (target : Expr) (op : Operator) (value : Expr) (o : Out) : Out :=
  match target with
  | .name t =>
    if ec.params.contains t then
      let o := o.put ([' ', ' '] ++ t ++ ['[', 'i', ']', ' ', '=', ' '])
      if op ≠ .none then
        match if opIsCompare op then none else glslOp ec op value with
        | none => o.fail
        | some s =>
          let o := emitExpr ec value false (o.put (t ++ ['[', 'i', ']', ' '] ++ s ++ [' ', '(']))
          (o.put [')']).put [';', '\n']
      else (emitExpr ec value false o).put [';', '\n']
    else o.fail
  | _ => o.fail

mutual

/-- One round of `emit_stmts`. -/
def emitStmt : Stmt → Out → Out
  | .assign target op value, o => emitAssign ec target op value o
  | .block stmts, o => emitStmts stmts o
  | .bind names value, o =>
    match names, value with
    | [nm], some value =>
      if o.locals.length ≥ 64 then o.fail
      else
        let o := o.put ([' ', ' '] ++ ec.ety ++ [' '] ++ nm ++ [' ', '=', ' '])
        let o := (emitExpr ec value false o).put [';', '\n']
        { o with locals := o.locals ++ [nm] }
    | _, _ => o.fail
  | .cond cond thenBody elseBody, o =>
    let o := emitExpr ec cond true (o.put [' ', ' ', 'i', 'f', ' ', '('])
    let o := (emitStmts thenBody (o.put [')', ' ', '{', '\n'])).put [' ', ' ', '}']
    let o :=
      if elseBody.isEmpty then o
      else
        (emitStmts elseBody (o.put [' ', 'e', 'l', 's', 'e', ' ', '{', '\n'])).put [' ', ' ', '}']
    o.put ['\n']
  | .absent, o => o
  | .other, o => o.fail

/-- `emit_stmts`. -/
def emitStmts : List Stmt → Out → Out
  | [], o => o
  | s :: ss, o => if o.ok then emitStmts ss (emitStmt s o) else o

end

end Emit

/-! ## The shader -/

/-- `glsl_scalar_type`. -/
def glslScalarType : HirType → Option Text
  | .float => some "float".toList
  | .int width signed =>
    if width = 0 ∨ width = 32 then some (if signed then "int".toList else "uint".toList) else none
  | .other => none

/-- The loop of `map_glsl_elem_type`. -/
def elemType (arch : ArchetypeDecl) : Option Text → List Text → Option Text
  | ety, [] => ety
  | ety, pn :: ps =>
    match (arch.fields.find? fun f => f.isColumn && f.name == pn).bind fun f =>
      glslScalarType f.type with
    | none => none
    | some ct => if ety.all (· == ct) then elemType arch (some ct) ps else none

/-- `map_glsl_elem_type`. -/
def mapGlslElemType (map : KernelDecl) (arch : ArchetypeDecl) : Option Text :=
  elemType arch none map.params

/-- `%d`. -/
def decimal (n : Nat) : Text := Nat.toDigits 10 n

def tick : Text := ['\x60']

/-- What is put in front of the body. -/
def headPieces (map : KernelDecl) (arch : ArchetypeDecl) (ety : Text) : List Text :=
  ["#version 450\n".toList,
    "// generated from ".toList ++ tick ++ map.name ++ tick ++ " over archetype ".toList ++ tick ++
      arch.name ++ tick ++ [' '] ++ ['\xe2', '\x80', '\x94'] ++
      " the GPU lowering of an arche ".toList ++ tick ++ "map".toList ++ tick ++ ".\n".toList,
    "layout(local_size_x = 64) in;\n".toList] ++
  (map.params.zipIdx.map fun p =>
    "layout(std430, binding = ".toList ++ decimal p.2 ++ ") buffer B_".toList ++ p.1 ++
      " \x7b ".toList ++ ety ++ [' '] ++ p.1 ++ "[]; \x7d;\n".toList) ++
  ["layout(push_constant) uniform Params \x7b uint count; \x7d;\n".toList,
    "void main() \x7b\n".toList,
    "  uint i = gl_GlobalInvocationID.x;\n".toList, "  if (i >= count) return;\n".toList]

def footPieces : List Text := ["\x7d\n".toList]

/-- What the emitter makes of the body. -/
def emitBody (consts : List ConstDecl) (map : KernelDecl) (ety : Text) : Out :=
  emitStmts ⟨map.params, consts, ety, ety == "float".toList⟩ map.stmts ⟨[], true, []⟩

/-- `gb_putf` of a piece of plain text. -/
def gbPutf (data : Text) (s : Text) : Option Text :=
  if s.length + 1 ≤ 1024 then some (data ++ s) else none

/-- A buffer after all pieces. -/
def gbText (pieces : List Text) : Option Text := pieces.foldlM gbPutf []

/-- What `gpu_glsl_build_src` returns. -/
inductive Source
  | null
  | text (s : Text)
  /-- Bytes behind the staging buffer were read. -/
  | overread
deriving DecidableEq

/-- `gpu_glsl_build_src`. -/
def gpuGlslBuildSrc (consts : List ConstDecl) (map : KernelDecl) (arch : ArchetypeDecl) : Source :=
  match mapGlslElemType map arch with
  | none => .null
  | some ety =>
    let o := emitBody consts map ety
    match gbText o.pieces with
    | none => .overread
    | some body =>
      if !o.ok ∨ body = [] then .null
      else
        match gbText (headPieces map arch ety ++ [body] ++ footPieces) with
        | none => .overread
        | some src => .text src

/-! ## What the source is to be -/

/-- The complete text of the body. -/
def bodyText (consts : List ConstDecl) (map : KernelDecl) (ety : Text) : Text :=
  (emitBody consts map ety).pieces.flatten

/-- Header, declarations, body and footer. -/
def shaderText (consts : List ConstDecl) (map : KernelDecl) (arch : ArchetypeDecl) (ety : Text) :
    Text :=
  (headPieces map arch ety).flatten ++ bodyText consts map ety ++ footPieces.flatten

/-- The emitter takes the body. -/
structure Accepted (consts : List ConstDecl) (map : KernelDecl) (arch : ArchetypeDecl)
    (ety : Text) : Prop where
  type : mapGlslElemType map arch = some ety
  ok : (emitBody consts map ety).ok = true
  nonempty : bodyText consts map ety ≠ []

/-! ## Exactness -/

theorem foldlM_gbPutf (data : Text) (ps : List Text) :
    ps.foldlM gbPutf data =
      if ∀ s ∈ ps, s.length < 1024 then some (data ++ ps.flatten) else none := by
  induction ps generalizing data with
  | nil => simp
  | cons s ps ih =>
    rw [List.foldlM_cons, gbPutf]
    split
    · next hfits =>
      have hs : s.length < 1024 := hfits
      rw [Option.bind_eq_bind, Option.bind_some, ih]
      simp only [List.forall_mem_cons, hs, true_and, List.flatten_cons, List.append_assoc]
    · next hlong =>
      have hs : ¬ s.length < 1024 := hlong
      simp [hs]

theorem gbText_eq (ps : List Text) :
    gbText ps = if ∀ s ∈ ps, s.length < 1024 then some ps.flatten else none := by
  rw [gbText, foldlM_gbPutf, List.nil_append]

/-- The source is exact if and only if every piece lies in the staging buffer. -/
theorem build_exact_iff {consts : List ConstDecl} {map : KernelDecl} {arch : ArchetypeDecl}
    {ety : Text} (h : Accepted consts map arch ety) :
    gpuGlslBuildSrc consts map arch = .text (shaderText consts map arch ety) ↔
      (bodyText consts map ety).length < 1024 ∧
        ∀ line ∈ headPieces map arch ety, line.length < 1024 := by
  have hfoot : ∀ line ∈ footPieces, line.length < 1024 := by decide
  have hflat : (headPieces map arch ety ++ [bodyText consts map ety] ++ footPieces).flatten =
      shaderText consts map arch ety := by
    rw [List.flatten_append, List.flatten_append, List.flatten_singleton, shaderText]
  rw [gpuGlslBuildSrc, h.type]
  dsimp only
  rw [gbText_eq]
  split
  · next hover =>
    rw [ite_eq_right_iff] at hover
    constructor
    · intro hsrc
      cases hsrc
    · rintro ⟨hbody, -⟩
      have hall : ∀ s ∈ (emitBody consts map ety).pieces, s.length < 1024 := fun s hs =>
        Nat.lt_of_le_of_lt (List.sublist_flatten_of_mem hs).length_le hbody
      cases hover hall
  · next body hbody =>
    have hall := (Option.ite_none_right_eq_some.mp hbody).2
    have hbody : body = bodyText consts map ety := (Option.some.inj hall).symm
    have hgoes : ¬ ((!(emitBody consts map ety).ok) = true ∨ body = []) := by
      rintro (hno | hempty)
      · rw [h.ok] at hno
        cases hno
      · exact h.nonempty (hbody ▸ hempty)
    have hpieces : (∀ s ∈ headPieces map arch ety ++ [bodyText consts map ety] ++ footPieces,
        s.length < 1024) ↔ (bodyText consts map ety).length < 1024 ∧
          ∀ line ∈ headPieces map arch ety, line.length < 1024 := by
      simp only [List.mem_append, List.mem_singleton]
      constructor
      · intro hs
        exact ⟨hs _ (.inl (.inr rfl)), fun line hline => hs line (.inl (.inl hline))⟩
      · rintro ⟨hshort, hhead⟩ s ((hs | rfl) | hs)
        · exact hhead s hs
        · exact hshort
        · exact hfoot s hs
    rw [if_neg hgoes, hbody, gbText_eq, hflat]
    by_cases hshort : ∀ s ∈ headPieces map arch ety ++ [bodyText consts map ety] ++ footPieces,
        s.length < 1024
    · rw [if_pos hshort]
      exact iff_of_true rfl (hpieces.mp hshort)
    · rw [if_neg hshort]
      refine iff_of_false ?_ fun hlines => hshort (hpieces.mpr hlines)
      intro hsrc
      cases hsrc

/-! ## A long body -/

/-- `x = x + 1`, `n` times. -/
def countMap (n : Nat) : KernelDecl where
  name := "step".toList
  params := ["x".toList]
  stmts := List.replicate n
    (.assign (.name "x".toList) .none
      (.binary .add (.name "x".toList) (.literal (some "1".toList))))

def countArchetype : ArchetypeDecl := ⟨"Cell".toList, [⟨"x".toList, true, .int 32 true⟩]⟩

theorem build_exact_iff_count :
    gpuGlslBuildSrc [] (countMap 2) countArchetype =
        .text (shaderText [] (countMap 2) countArchetype "int".toList) ↔
      (bodyText [] (countMap 2) "int".toList).length < 1024 ∧
        ∀ line ∈ headPieces (countMap 2) countArchetype "int".toList, line.length < 1024 :=
  build_exact_iff ⟨rfl, rfl, by decide⟩

/-- With 50 assignments the body has 1050 bytes. -/
theorem not_build_exact :
    ¬ ∀ (consts : List ConstDecl) (map : KernelDecl) (arch : ArchetypeDecl) (ety : Text),
      Accepted consts map arch ety →
        gpuGlslBuildSrc consts map arch = .text (shaderText consts map arch ety) := by
  intro h
  have hexact := h [] (countMap 50) countArchetype "int".toList
    ⟨rfl, by decide +kernel, by decide +kernel⟩
  have hover : gpuGlslBuildSrc [] (countMap 50) countArchetype = .overread := by
    decide +kernel
  rw [hover] at hexact
  cases hexact

end Arche.Codegen.Glsl
