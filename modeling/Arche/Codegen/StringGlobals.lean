import Arche.Codegen.IntLiterals
import Arche.Lib.Fill
import Arche.Lib.LlvmArray
import Arche.Syntax.StringTokens

/-!
# String literals

A literal is decoded when it is lowered, and once more where code generation gets it as it was
written. The decoded bytes are written as a constant of LLVM, which becomes a global under the hash
of its text.

* The buffers of code generation have 2048 and 2200 bytes, the loops stop ten bytes before the end.
* `Emission.Exact`: whatever else a module has, the global holds the decoded bytes and a NUL, as
  many as are declared, and the length that goes with the value is theirs.
* `SameByte`: an escape means the same in all decoders.

1. `stringExpr_exact_iff`, `quotedLiteral_exact_iff`: a literal that fits is exact, and no other.
2. `token_exact_iff`: for a token, that and no escape `\0` is the condition.
-/

namespace Arche.Codegen.StringGlobals

open Arche.Lib Arche.Lib.Llvm Arche.Syntax

abbrev Text := List Char

def decimal (n : Nat) : Text := Nat.toDigits 10 n

/-- What `snprintf` leaves in a buffer of `n` bytes. -/
def fit (n : Nat) (t : Text) : Text := t.take (n - 1)

/-! ## Decoding -/

/-- The `switch` of `syntax_decode_string`. -/
def decodeEscape : Char → Char
  | 'n' => '\n'
  | 't' => '\t'
  | 'r' => '\r'
  | '\\' => '\\'
  | '"' => '"'
  | c => c

/-- The loop of `syntax_decode_string`, on what is left of the token; its last byte is the quote. -/
def decodeFrom : Text → Text
  | c :: d :: cs =>
    if c = '\\' ∧ cs ≠ [] then decodeEscape d :: decodeFrom cs else c :: decodeFrom (d :: cs)
  | _ => []

def syntaxDecodeString (raw : Text) : Text := decodeFrom (raw.drop 1)

/-- The `switch` of `emit_string_global_impl`. -/
def quotedEscape : Char → Char
  | 'n' => '\n'
  | 't' => '\t'
  | 'r' => '\r'
  | '\\' => '\\'
  | '"' => '"'
  | c => c

/-- The first loop of `emit_string_global_impl`; `pos` is `escaped_pos`. -/
def quotedFrom (pos : Nat) : Text → Text
  | c :: d :: cs =>
    if pos < 2048 - 10 then
      if c = '\\' ∧ cs ≠ [] then quotedEscape d :: quotedFrom (pos + 1) cs
      else c :: quotedFrom (pos + 1) (d :: cs)
    else []
  | _ => []

/-- The loops that count the bytes of a quoted lexeme where it is used. -/
def lexemeLengthFrom : Text → Nat
  | [] => 0
  | c :: cs =>
    if c = '"' ∨ c = nul then 0
    else if c = '\\' then
      match cs with
      | [] => 1
      | d :: ds => if d = nul then 1 else lexemeLengthFrom ds + 1
    else lexemeLengthFrom cs + 1

def lexemeLength (lex : Text) : Nat := lexemeLengthFrom (lex.drop 1)

/-- A `char` of C is signed. -/
def signed (c : Char) : Int := if c.toNat < 128 then c.toNat else c.toNat - 256

def charLiteralValue (lex : Text) : Int :=
  if lex.getD 1 nul = '\\' then
    match lex.getD 2 nul with
    | 'n' => 10
    | 't' => 9
    | 'r' => 13
    | '\\' => 92
    | '\'' => 39
    | '0' => 0
    | c => signed c
  else signed (lex.getD 1 nul)

/-! ## Char matrices -/

/-- The initializers that `emit_array_init_elems` tells apart. -/
inductive InitExpr where
  | arrayLiteral (elements : List InitExpr)
  | string (value : Text)
  | literal (lexeme : Text)
  | other

/-- `buf`, `*pos` and `*count`. -/
structure InitBuf where
  text : Text
  pos : Nat
  count : Nat

/-- One entry. `*pos` counts what does not fit as well. -/
def InitBuf.entry (bufsz : Nat) (llvmType v : Text) (b : InitBuf) : InitBuf :=
  let piece := (if b.count = 0 then [] else [',', ' ']) ++ llvmType ++ ' ' :: v
  { text := b.text ++ fit (bufsz - b.pos) piece, pos := b.pos + piece.length, count := b.count + 1 }

/-- A loop over bytes with its stop. -/
def InitBuf.bytes (bufsz : Nat) (llvmType : Text) (b : InitBuf) : List Nat → InitBuf
  | [] => b
  | n :: ns =>
    if b.pos < bufsz - 80 then (b.entry bufsz llvmType (decimal n)).bytes bufsz llvmType ns else b

/-- `%d` and `%lld`. -/
def printInt (i : Int) : Text := if i < 0 then '-' :: decimal i.natAbs else decimal i.natAbs

def literalValue (lx : Text) : Text :=
  match lx with
  | '\'' :: _ => printInt (charLiteralValue lx)
  | '0' :: 'x' :: cs => printInt (IntLiterals.strtolIn 16 cs)
  | '0' :: 'X' :: cs => printInt (IntLiterals.strtolIn 16 cs)
  | _ => lx

mutual

def emitArrayInitElems (bufsz : Nat) (llvmType : Text) (rowStride : Nat) (b : InitBuf) :
    InitExpr → InitBuf
  | .arrayLiteral es =>
    if b.pos < bufsz - 80 then emitArrayInitRows bufsz llvmType rowStride b es else b
  | .string v =>
    if b.pos < bufsz - 80 then
      (b.bytes bufsz llvmType (v.map Char.toNat)).bytes bufsz llvmType
        (List.replicate (rowStride - v.length) 0)
    else b
  | .literal lx => if b.pos < bufsz - 80 then b.entry bufsz llvmType (literalValue lx) else b
  | .other => if b.pos < bufsz - 80 then b.entry bufsz llvmType ['0'] else b

def emitArrayInitRows (bufsz : Nat) (llvmType : Text) (rowStride : Nat) (b : InitBuf) :
    List InitExpr → InitBuf
  | [] => b
  | e :: es =>
    emitArrayInitRows bufsz llvmType rowStride (emitArrayInitElems bufsz llvmType rowStride b e) es

end

/-- The text of a static array with one row, up to the closing bracket. -/
def oneRow (value : Text) : Text :=
  (emitArrayInitElems 16384 "i8".toList 1 ⟨['['], 1, 0⟩ (.arrayLiteral [.string value])).text

/-! ## The globals -/

/-- What `cg_content_hash` computes. -/
def contentHash (data : Text) : UInt64 :=
  data.foldl (fun h c => (h ^^^ UInt64.ofNat c.toNat) * 1099511628211) 1469598103934665603

/-- `%016llx`. -/
def hex16 (h : UInt64) : Text :=
  let digits := Nat.toDigits 16 h.toNat
  List.replicate (16 - digits.length) '0' ++ digits

def globalName (kind rhs : Text) : Text :=
  fit 64 ("@.".toList ++ kind ++ '.' :: hex16 (contentHash rhs))

/-- The interned constants; each is a definition in the globals of the module. -/
structure Globals where
  interned : List (Text × Text)
  hadError : Bool

def Globals.definition (g : Globals) (name : Text) : Option Text := g.interned.lookup name

def internGlobal (g : Globals) (kind rhs : Text) : Text × Globals :=
  let name := globalName kind rhs
  match g.definition name with
  | some r => (name, if r ≠ rhs then { g with hadError := true } else g)
  | none => (name, { g with interned := g.interned ++ [(name, rhs)] })

/-- The constants of a module, by kind and text, in the order they are used. -/
def internAll (g : Globals) (constants : List (Text × Text)) : Globals :=
  constants.foldl (fun g c => (internGlobal g c.1 c.2).2) g

/-! ## Literals -/

def llvmByte (c : Char) : Text :=
  if 32 ≤ c.toNat ∧ c.toNat < 127 ∧ c ≠ '"' ∧ c ≠ '\\' then [c] else '\\' :: hexPair c.toNat

/-- The second loop of `emit_string_global_impl`, and the loop for `HIR_EXPR_STRING`. -/
def llvmEscaped (bytes : Text) : Text := fill (2048 - 10) llvmByte [] bytes

/-- `"[%zu x i8] c\"%s\\00\""`, in a buffer of 2200 bytes. -/
def stringConstant (size : Nat) (escaped : Text) : Text :=
  fit 2200 ("[".toList ++ decimal size ++ " x i8] c\"".toList ++ escaped ++ "\\00\"".toList)

/-- What the generated code refers to: the constant, the size in the `getelementptr`, and the length
that goes with the value. -/
structure Emission where
  rhs : Text
  refSize : Nat
  length : Nat

/-- `HIR_EXPR_STRING`. -/
def stringExpr (value : Text) : Emission where
  rhs := stringConstant (value.length + 1) (llvmEscaped value)
  refSize := value.length + 1
  length := value.length

/-- `emit_string_global`. -/
def emitStringGlobal (quoted : Text) : Text :=
  let escaped := quotedFrom 0 (quoted.drop 1)
  stringConstant (escaped.length + 1) (llvmEscaped escaped)

/-- A literal, or a constant, that is a quoted lexeme. -/
def quotedLiteral (lex : Text) : Emission where
  rhs := emitStringGlobal lex
  refSize := lexemeLength lex + 1
  length := lexemeLength lex

/-- Whatever else is in the module, the global holds the bytes and a NUL. -/
structure Emission.Exact (e : Emission) (bytes : Text) : Prop where
  refSize : e.refSize = bytes.length + 1
  length : e.length = bytes.length
  global : ∀ before after : List (Text × Text),
    let g := internAll ⟨[], false⟩ (before ++ ("str".toList, e.rhs) :: after)
    g.hadError = false → ∃ rhs, g.definition (globalName "str".toList e.rhs) = some rhs ∧
      readArray rhs = some (bytes.length + 1, bytes ++ [nul])

/-- A string and a character literal with one escape. -/
def escapedString (e : Char) : Text := ['"', '\\', e, '"']

def escapedChar (e : Char) : Text := ['\'', '\\', e, '\'']

/-- All decoders give the byte `b` for the escape. A character literal is stored as an `i8`. -/
structure Decoders (e b : Char) : Prop where
  lowered : syntaxDecodeString (escapedString e) = [b]
  quoted : quotedFrom 0 ((escapedString e).drop 1) = [b]
  row : oneRow (syntaxDecodeString (escapedString e)) = "[i8 ".toList ++ decimal b.toNat
  char : charLiteralValue (escapedChar e) % 256 = b.toNat

def SameByte (e : Char) : Prop := ∃ b, Decoders e b

/-! ## Tokens -/

/-- The bytes that are escaped in a token. -/
def escapes : Text → Text
  | '\\' :: d :: cs => d :: escapes cs
  | _ :: cs => escapes cs
  | [] => []

/-- The bytes that LLVM gets as they are. -/
def printable (c : Char) : Bool := 32 ≤ c.toNat && c.toNat < 127 && c != '"' && c != '\\'

def plainWidth (c : Char) : Nat := if printable c then 1 else 3

def escapeWidth (d : Char) : Nat :=
  if d = 'n' ∨ d = 't' ∨ d = 'r' then 3 else plainWidth d

/-- How many characters the bytes of a token take. -/
def widths : Text → List Nat
  | '\\' :: d :: cs => escapeWidth d :: widths cs
  | c :: cs => plainWidth c :: widths cs
  | [] => []

/-- What stands between the quotes. -/
def inner (t : StringToken) : Text := (t.text.drop 1).dropLast

/-- All bytes but the last take fewer than 2038 characters. -/
def Fits (t : StringToken) : Prop := (widths (inner t)).dropLast.sum < 2048 - 10

structure Exact (t : StringToken) : Prop where
  string : (stringExpr (syntaxDecodeString t.text)).Exact (syntaxDecodeString t.text)
  quoted : (quotedLiteral t.text).Exact (syntaxDecodeString t.text)
  escapes : ∀ e ∈ escapes (inner t), SameByte e

/-! ## The decoders on a body -/

theorem decodeFrom_plain {c : Char} (hc : c ≠ '\\') {cs : Text} (hcs : cs ≠ []) :
    decodeFrom (c :: cs) = c :: decodeFrom cs := by
  obtain ⟨d, ds, rfl⟩ := List.exists_cons_of_ne_nil hcs
  rw [decodeFrom, if_neg fun h => hc h.1]

theorem decodeFrom_escape (d : Char) {cs : Text} (hcs : cs ≠ []) :
    decodeFrom ('\\' :: d :: cs) = decodeEscape d :: decodeFrom cs := by
  rw [decodeFrom, if_pos ⟨rfl, hcs⟩]

theorem quotedEscape_eq (d : Char) : quotedEscape d = decodeEscape d := rfl

/-- Code generation decodes as lowering does, until its buffer is full. -/
theorem quotedFrom_eq (pos : Nat) (s : Text) :
    quotedFrom pos s = (decodeFrom s).take (2048 - 10 - pos) := by
  fun_induction quotedFrom pos s with
  | case1 pos c d cs hpos hslash ih =>
    obtain ⟨k, hk⟩ := Nat.exists_eq_add_of_lt hpos
    rw [decodeFrom, if_pos hslash, ih, quotedEscape_eq,
      show 2048 - 10 - pos = 2048 - 10 - (pos + 1) + 1 by omega, List.take_succ_cons]
  | case2 pos c d cs hpos hslash ih =>
    rw [decodeFrom, if_neg hslash, ih,
      show 2048 - 10 - pos = 2048 - 10 - (pos + 1) + 1 by omega, List.take_succ_cons]
  | case3 pos c d cs hpos =>
    rw [Nat.sub_eq_zero_of_le (Nat.not_lt.mp hpos), List.take_zero]
  | case4 pos s hs =>
    rw [decodeFrom, List.take_nil]
    exact hs

theorem plainWidth_eq (c : Char) : plainWidth c = (llvmByte c).length := by
  unfold plainWidth llvmByte printable
  split <;> split <;> simp_all [hexPair]

theorem escapeWidth_eq (d : Char) : escapeWidth d = (llvmByte (decodeEscape d)).length := by
  unfold decodeEscape
  split
  case h_6 hn ht hr _ _ =>
    rw [escapeWidth, if_neg (by simpa using ⟨hn, ht, hr⟩), plainWidth_eq]
  all_goals rfl

section Body

variable {cs : Text} (h : Body cs)
include h

theorem lexemeLengthFrom_body :
    lexemeLengthFrom (cs ++ ['"']) = (decodeFrom (cs ++ ['"'])).length := by
  induction h with
  | nil => rfl
  | @plain c cs hq hs hn _ ih =>
    rw [List.cons_append, decodeFrom_plain hs (by simp), List.length_cons, ← ih,
      lexemeLengthFrom.eq_def]
    simp [hq, hs, hn]
  | @escape d cs hd _ ih =>
    rw [List.cons_append, List.cons_append, decodeFrom_escape d (by simp), List.length_cons, ← ih,
      lexemeLengthFrom.eq_def]
    exact if_neg hd

theorem widths_body :
    widths cs = (decodeFrom (cs ++ ['"'])).map fun c => (llvmByte c).length := by
  induction h with
  | nil => rfl
  | @plain c cs _ hs _ _ ih =>
    rw [List.cons_append, decodeFrom_plain hs (by simp), List.map_cons, ← ih, ← plainWidth_eq,
      widths]
    exact fun d ds hslash _ => hs hslash
  | @escape d cs _ _ ih =>
    rw [List.cons_append, List.cons_append, decodeFrom_escape d (by simp), List.map_cons, ← ih,
      ← escapeWidth_eq, widths]

end Body

theorem decodeEscape_byte {d : Char} (hd : d.toNat < 256) : (decodeEscape d).toNat < 256 := by
  unfold decodeEscape
  split
  case h_6 => exact hd
  all_goals decide

theorem decodeFrom_bytes {s : Text} (hs : ∀ c ∈ s, c.toNat < 256) :
    ∀ c ∈ decodeFrom s, c.toNat < 256 := by
  fun_induction decodeFrom s with
  | case1 c d cs hslash ih =>
    have hrest := ih fun x hx => hs x (List.mem_cons_of_mem _ (List.mem_cons_of_mem _ hx))
    simpa using ⟨decodeEscape_byte (hs d (by simp)), hrest⟩
  | case2 c d cs hslash ih =>
    simpa using ⟨hs c List.mem_cons_self, ih fun x hx => hs x (List.mem_cons_of_mem _ hx)⟩
  | case3 => simp

/-! ## Writing and reading the bytes -/

theorem llvmByte_quote {c : Char} (hc : c.toNat < 256) : '"' ∉ llvmByte c := by
  obtain ⟨-, -, hhigh, hlow⟩ := hexByte_hexPair ⟨c.toNat, hc⟩
  unfold llvmByte
  split
  · next hplain => simpa using fun h : '"' = c => hplain.2.2.1 h.symm
  · simpa [hexPair] using ⟨hhigh.symm, hlow.symm⟩

theorem llvmByte_pos (c : Char) : 1 ≤ (llvmByte c).length := by
  unfold llvmByte
  split <;> simp

theorem llvmByte_le (c : Char) : (llvmByte c).length ≤ 3 := by
  unfold llvmByte
  split <;> simp [hexPair]

theorem unescape_llvmByte {c : Char} (hc : c.toNat < 256) (cs : Text) :
    unescape (llvmByte c ++ cs) = c :: unescape cs := by
  unfold llvmByte
  split
  · next hplain => exact unescape_plain hplain.2.2.2 cs
  · exact unescape_hexPair hc cs

variable {bytes : Text}

theorem unescape_flatMap (hbytes : ∀ c ∈ bytes, c.toNat < 256) (rest : Text) :
    unescape (bytes.flatMap llvmByte ++ rest) = bytes ++ unescape rest := by
  induction bytes with
  | nil => rfl
  | cons c bytes ih =>
    rw [List.flatMap_cons, List.append_assoc, unescape_llvmByte (hbytes c List.mem_cons_self),
      ih fun d hd => hbytes d (List.mem_cons_of_mem _ hd), List.cons_append]

/-- The bytes that get into the constant. -/
def written (bytes : Text) : Text := taken (2048 - 10) llvmByte 0 bytes

theorem llvmEscaped_eq (bytes : Text) : llvmEscaped bytes = (written bytes).flatMap llvmByte :=
  fill_eq [] bytes

theorem written_bytes (hbytes : ∀ c ∈ bytes, c.toNat < 256) :
    ∀ c ∈ written bytes, c.toNat < 256 :=
  fun c hc => hbytes c ((taken_isPrefix 0 bytes).subset hc)

/-- The text of a constant before it goes through its buffer. -/
def constantText (size : Nat) (bytes : Text) : Text :=
  '[' :: (decimal size ++
    (start ++ ((written bytes).flatMap llvmByte ++ ['\\', '0', '0'] ++ ['"'])))

theorem stringConstant_eq (size : Nat) (bytes : Text) :
    stringConstant size (llvmEscaped bytes) = fit 2200 (constantText size bytes) := by
  rw [stringConstant, llvmEscaped_eq, constantText]
  simp [start]

theorem written_quote (hbytes : ∀ c ∈ bytes, c.toNat < 256) :
    '"' ∉ (written bytes).flatMap llvmByte ++ ['\\', '0', '0'] := by
  simp only [List.mem_append, List.mem_flatMap, not_or, not_exists, not_and]
  exact ⟨fun c hc => llvmByte_quote (written_bytes hbytes c hc), by decide⟩

theorem read_constantText (hbytes : ∀ c ∈ bytes, c.toNat < 256) (size : Nat) :
    readArray (constantText size bytes) = some (size, written bytes ++ [nul]) := by
  rw [constantText, decimal, readArray_eq (written_quote hbytes),
    unescape_flatMap (written_bytes hbytes)]
  rfl

/-- What does not fit into the buffer of 2200 bytes loses its closing quote. -/
theorem read_stringConstant (hbytes : ∀ c ∈ bytes, c.toNat < 256) {size : Nat}
    {g : Nat × Text} (h : readArray (stringConstant size (llvmEscaped bytes)) = some g) :
    g = (size, written bytes ++ [nul]) := by
  rw [stringConstant_eq, fit] at h
  rcases Nat.lt_or_ge (2200 - 1) (constantText size bytes).length with hcut | hfits
  · obtain ⟨head, htext, hcount⟩ :
        ∃ head, constantText size bytes = head ++ ['"'] ∧ head.count '"' = 1 := by
      refine ⟨'[' :: (decimal size ++ (start ++ ((written bytes).flatMap llvmByte ++
        ['\\', '0', '0']))), by simp [constantText], ?_⟩
      have hdigits : '"' ∉ decimal size := fun hmem =>
        absurd (Nat.isDigit_of_mem_toDigits (by decide) (by decide) hmem) (by decide)
      rw [List.count_cons, List.count_append, List.count_append,
        List.count_eq_zero_of_not_mem hdigits, List.count_eq_zero_of_not_mem (written_quote hbytes)]
      decide
    have htwo := two_le_count_of_readArray h
    rw [htext] at hcut htwo
    rw [List.length_append, List.length_singleton] at hcut
    rw [List.take_append_of_le_length (Nat.le_of_lt_succ hcut)] at htwo
    have hle := (List.take_sublist (2200 - 1) head).count_le '"'
    omega
  · rw [List.take_of_length_le hfits, read_constantText hbytes] at h
    exact (Option.some.inj h).symm

/-! ## Exact literals -/

/-- Every byte but the last is below the limit. -/
def Room (bytes : Text) : Prop :=
  bytes = [] ∨ (bytes.dropLast.flatMap llvmByte).length < 2048 - 10

theorem written_eq_iff : written bytes = bytes ↔ Room bytes := by
  rw [written, taken_eq_self_iff, Nat.zero_add, Room]

theorem Room.length_le (h : Room bytes) : bytes.length ≤ 2048 - 10 := by
  rcases h with rfl | h
  · exact Nat.zero_le _
  · have hle := length_le_length_flatMap llvmByte_pos bytes.dropLast
    rw [List.length_dropLast] at hle
    omega

theorem read_of_room (hbytes : ∀ c ∈ bytes, c.toNat < 256) (h : Room bytes) :
    readArray (stringConstant (bytes.length + 1) (llvmEscaped bytes)) =
      some (bytes.length + 1, bytes ++ [nul]) := by
  have hdigits : (decimal (bytes.length + 1)).length ≤ 4 :=
    (Nat.length_toDigits_le_iff (by decide) (by decide)).mpr (by have := h.length_le; omega)
  have htext : ((written bytes).flatMap llvmByte).length ≤ 2048 - 10 + 3 := by
    have hle := @length_flatMap_taken_le _ _ (2048 - 10) _ _ llvmByte_le 0 (Nat.zero_le _) bytes
    rwa [Nat.zero_add] at hle
  have hfits : (constantText (bytes.length + 1) bytes).length ≤ 2200 - 1 := by
    rw [constantText, List.length_cons, List.length_append, List.length_append, List.length_append,
      List.length_append]
    simp only [start, List.length_cons, List.length_nil]
    omega
  rw [stringConstant_eq, fit, List.take_of_length_le hfits, read_constantText hbytes,
    written_eq_iff.mpr h]

/-! ## Interned constants -/

theorem definition_append {g : Globals} {name n r : Text} {b : Bool}
    (h : g.definition n = some r) (rhs : Text) :
    (Globals.mk (g.interned ++ [(name, rhs)]) b).definition n = some r := by
  rw [Globals.definition, List.lookup_append] at *
  rw [h, Option.some_or]

/-- One more constant: the definitions stay, an error stays, and without one the name of the
constant has its text. -/
theorem internGlobal_step (g : Globals) (kind rhs : Text) :
    (∀ n r, g.definition n = some r → (internGlobal g kind rhs).2.definition n = some r) ∧
    (g.hadError = true → (internGlobal g kind rhs).2.hadError = true) ∧
    ((internGlobal g kind rhs).2.hadError = false →
      (internGlobal g kind rhs).2.definition (globalName kind rhs) = some rhs) := by
  cases hdef : g.definition (globalName kind rhs) with
  | none =>
    have hnew : (internGlobal g kind rhs).2 =
        ⟨g.interned ++ [(globalName kind rhs, rhs)], g.hadError⟩ := by
      rw [internGlobal, hdef]
    rw [hnew]
    refine ⟨fun n r hn => definition_append hn rhs, fun h => h, fun _ => ?_⟩
    have hnone : g.interned.lookup (globalName kind rhs) = none := hdef
    rw [Globals.definition, List.lookup_append, hnone, Option.none_or]
    simp
  | some r =>
    have hknown : (internGlobal g kind rhs).2 =
        if r ≠ rhs then { g with hadError := true } else g := by
      rw [internGlobal, hdef]
    rw [hknown]
    split
    · exact ⟨fun n r hn => hn, fun _ => rfl, nofun⟩
    · next heq =>
      rw [not_not] at heq
      exact ⟨fun n r hn => hn, fun h => h, fun _ => by rw [hdef, heq]⟩

/-- A run over constants. -/
theorem internAll_run (constants : List (Text × Text)) (g : Globals)
    (herr : (internAll g constants).hadError = false) :
    g.hadError = false ∧
    (∀ n r, g.definition n = some r → (internAll g constants).definition n = some r) ∧
    ∀ c ∈ constants, (internAll g constants).definition (globalName c.1 c.2) = some c.2 := by
  induction constants generalizing g with
  | nil => exact ⟨herr, fun _ _ h => h, by simp⟩
  | cons c cs ih =>
    obtain ⟨hkeep, herror, hnew⟩ := internGlobal_step g c.1 c.2
    obtain ⟨hok, hold, hall⟩ := ih _ herr
    refine ⟨?_, fun n r hn => hold n r (hkeep n r hn), ?_⟩
    · cases hg : g.hadError with
      | false => rfl
      | true => rw [herror hg] at hok; cases hok
    · intro d hd
      rcases List.mem_cons.mp hd with rfl | hd
      · exact hold _ _ (hnew hok)
      · exact hall d hd

theorem emission_exact_iff (e : Emission) :
    e.Exact bytes ↔ e.refSize = bytes.length + 1 ∧ e.length = bytes.length ∧
      readArray e.rhs = some (bytes.length + 1, bytes ++ [nul]) := by
  constructor
  · intro h
    have hfirst := internGlobal_step ⟨[], false⟩ "str".toList e.rhs
    obtain ⟨rhs, hdef, hread⟩ := h.global [] [] rfl
    rw [show internAll ⟨[], false⟩ ([] ++ [("str".toList, e.rhs)]) =
      (internGlobal ⟨[], false⟩ "str".toList e.rhs).2 from rfl, hfirst.2.2 rfl] at hdef
    rw [← Option.some.inj hdef] at hread
    exact ⟨h.refSize, h.length, hread⟩
  · rintro ⟨hsize, hlength, hread⟩
    refine ⟨hsize, hlength, fun before after herr => ⟨e.rhs, ?_, hread⟩⟩
    exact (internAll_run _ _ herr).2.2 _ (List.mem_append_right _ List.mem_cons_self)

/-- `HIR_EXPR_STRING`. -/
theorem stringExpr_exact_iff (hbytes : ∀ c ∈ bytes, c.toNat < 256) :
    (stringExpr bytes).Exact bytes ↔ Room bytes := by
  rw [emission_exact_iff]
  constructor
  · rintro ⟨-, -, hread⟩
    have hsame := read_stringConstant hbytes hread
    exact written_eq_iff.mp (List.append_cancel_right (congrArg Prod.snd hsame)).symm
  · exact fun h => ⟨rfl, rfl, read_of_room hbytes h⟩

theorem decoded_bytes {cs : Text} (hbytes : ∀ c ∈ cs, c.toNat < 256) :
    ∀ c ∈ decodeFrom (cs ++ ['"']), c.toNat < 256 := by
  refine decodeFrom_bytes fun c hc => ?_
  rcases List.mem_append.mp hc with hc | hc
  · exact hbytes c hc
  · rw [List.mem_singleton.mp hc]
    decide

/-- A quoted lexeme. -/
theorem quotedLiteral_exact_iff {cs : Text} (h : Body cs) (hbytes : ∀ c ∈ cs, c.toNat < 256) :
    (quotedLiteral ('"' :: (cs ++ ['"']))).Exact (decodeFrom (cs ++ ['"'])) ↔
      Room (decodeFrom (cs ++ ['"'])) := by
  have hdecoded := decoded_bytes hbytes
  have hescaped : quotedFrom 0 (cs ++ ['"']) = (decodeFrom (cs ++ ['"'])).take (2048 - 10) :=
    quotedFrom_eq 0 _
  have hlength : (quotedLiteral ('"' :: (cs ++ ['"']))).length =
    (decodeFrom (cs ++ ['"'])).length := lexemeLengthFrom_body h
  have hrhs : (quotedLiteral ('"' :: (cs ++ ['"']))).rhs =
      stringConstant (((decodeFrom (cs ++ ['"'])).take (2048 - 10)).length + 1)
        (llvmEscaped ((decodeFrom (cs ++ ['"'])).take (2048 - 10))) := by
    rw [← hescaped]; rfl
  rw [emission_exact_iff, hrhs]
  constructor
  · rintro ⟨-, -, hread⟩
    have hsame := read_stringConstant (fun c hc => hdecoded c (List.mem_of_mem_take hc)) hread
    have hwritten := List.append_cancel_right (congrArg Prod.snd hsame)
    have hle := (@taken_isPrefix _ _ (2048 - 10) llvmByte 0
      ((decodeFrom (cs ++ ['"'])).take (2048 - 10))).length_le
    have hall : (decodeFrom (cs ++ ['"'])).take (2048 - 10) = decodeFrom (cs ++ ['"']) := by
      refine (List.take_prefix _ _).eq_of_length_le ?_
      exact Nat.le_trans (Nat.le_of_eq (congrArg List.length hwritten)) hle
    rw [hall] at hwritten
    exact written_eq_iff.mp hwritten.symm
  · intro hroom
    rw [List.take_of_length_le hroom.length_le]
    exact ⟨congrArg (· + 1) hlength, hlength, read_of_room hdecoded hroom⟩

/-! ## Escapes -/

theorem syntaxDecodeString_escape (e : Char) :
    syntaxDecodeString (escapedString e) = [decodeEscape e] :=
  decodeFrom_escape e (by simp)

/-- Byte by byte: a row has the decoded byte, and so has a character literal but for `\0`. -/
theorem decoders_byte (n : Fin 256) :
    oneRow [decodeEscape (Char.ofNat n)] =
      "[i8 ".toList ++ decimal (decodeEscape (Char.ofNat n)).toNat ∧
    (Char.ofNat n ≠ '0' →
      charLiteralValue (escapedChar (Char.ofNat n)) % 256 =
        (decodeEscape (Char.ofNat n)).toNat) := by
  revert n
  decide +kernel

theorem sameByte_iff {e : Char} (he : e.toNat < 256) : SameByte e ↔ e ≠ '0' := by
  obtain ⟨hrow, hchar⟩ := decoders_byte ⟨e.toNat, he⟩
  simp only [Char.ofNat_toNat] at hrow hchar
  constructor
  · rintro ⟨b, h⟩ rfl
    have hb : ['0'] = [b] := (syntaxDecodeString_escape '0').symm.trans h.lowered
    have hzero := h.char
    rw [← (List.cons.inj hb).1] at hzero
    exact absurd hzero (by decide)
  · intro hne
    refine ⟨decodeEscape e, syntaxDecodeString_escape e, ?_, ?_, hchar hne⟩
    · rw [quotedFrom_eq]
      exact congrArg (List.take _) (syntaxDecodeString_escape e)
    · rw [syntaxDecodeString_escape, hrow]

/-! ## The condition -/

theorem inner_eq {t : StringToken} {cs : Text} (htext : t.text = '"' :: (cs ++ ['"'])) :
    inner t = cs := by
  rw [inner, htext, List.drop_one, List.tail_cons, List.dropLast_concat]

theorem escapes_bytes {cs : Text} (hbytes : ∀ c ∈ cs, c.toNat < 256) :
    ∀ e ∈ escapes cs, e.toNat < 256 := by
  fun_induction escapes cs with
  | case1 d cs ih =>
    have hrest := ih fun x hx => hbytes x (by simp [hx])
    simpa using ⟨hbytes d (by simp), hrest⟩
  | case2 c cs _ ih => exact ih fun x hx => hbytes x (List.mem_cons_of_mem _ hx)
  | case3 => simp

/-- The decoded bytes of a token have room in the buffers exactly if the token fits. -/
theorem fits_iff {t : StringToken} {cs : Text} (h : Body cs)
    (htext : t.text = '"' :: (cs ++ ['"'])) : Fits t ↔ Room (decodeFrom (cs ++ ['"'])) := by
  rw [Fits, inner_eq htext, widths_body h, ← List.map_dropLast, ← List.length_flatMap, Room]
  constructor
  · exact .inr
  · rintro (hnil | hroom)
    · rw [hnil]; decide
    · exact hroom

theorem token_exact_iff (t : StringToken) : Exact t ↔ Fits t ∧ '0' ∉ escapes (inner t) := by
  obtain ⟨cs, hbody, hbytes, htext⟩ := t.text_eq
  have hdecoded : syntaxDecodeString t.text = decodeFrom (cs ++ ['"']) := by
    rw [htext]; rfl
  have hall : ∀ c ∈ decodeFrom (cs ++ ['"']), c.toNat < 256 := decoded_bytes hbytes
  have hstring := stringExpr_exact_iff hall
  have hquoted := quotedLiteral_exact_iff hbody hbytes
  have hescapes : (∀ e ∈ escapes (inner t), SameByte e) ↔ '0' ∉ escapes (inner t) := by
    rw [inner_eq htext]
    constructor
    · exact fun h hmem => (sameByte_iff (by decide)).mp (h '0' hmem) rfl
    · exact fun h e he => (sameByte_iff (escapes_bytes hbytes e he)).mpr fun h0 => h (h0 ▸ he)
  rw [fits_iff hbody htext]
  constructor
  · intro h
    have hs := h.string
    rw [hdecoded] at hs
    exact ⟨hstring.mp hs, hescapes.mp h.escapes⟩
  · rintro ⟨hroom, hnul⟩
    refine ⟨?_, ?_, hescapes.mpr hnul⟩
    · rw [hdecoded]
      exact hstring.mpr hroom
    · rw [hdecoded, htext]
      exact hquoted.mpr hroom

/-! ## Two literals that are not exact -/

theorem letters_body (n : Nat) : Body (List.replicate n 'a') := by
  induction n with
  | zero => exact .nil
  | succ n ih => exact .plain (by decide) (by decide) (by decide) ih

theorem letters_bytes (n : Nat) : ∀ c ∈ List.replicate n 'a', c.toNat < 256 := by
  intro c hc
  rw [List.eq_of_mem_replicate hc]
  decide

theorem decodeFrom_letters (n : Nat) :
    decodeFrom (List.replicate n 'a' ++ ['"']) = List.replicate n 'a' := by
  induction n with
  | zero => rfl
  | succ n ih =>
    rw [List.replicate_succ, List.cons_append, decodeFrom_plain (by decide) (by simp), ih]

/-- `n` letters between quotes. -/
def letterToken (n : Nat) : StringToken := .ofBody _ (letters_body n) (letters_bytes n)

theorem letterToken_text (n : Nat) :
    (letterToken n).text = '"' :: (List.replicate n 'a' ++ ['"']) :=
  StringToken.ofBody_text (letters_body n) (letters_bytes n)

theorem letterToken_decoded (n : Nat) :
    syntaxDecodeString (letterToken n).text = List.replicate n 'a' := by
  rw [letterToken_text]
  exact decodeFrom_letters n

theorem letterToken_le {n : Nat} (h : Exact (letterToken n)) : n ≤ 2048 - 10 := by
  have hstring := h.string
  rw [letterToken_decoded] at hstring
  have hroom := (stringExpr_exact_iff (letters_bytes n)).mp hstring
  have hlength := hroom.length_le
  rwa [List.length_replicate] at hlength

theorem zero_bytes : ∀ c ∈ ['\\', '0'], c.toNat < 256 := by
  intro c hc
  rcases List.mem_pair.mp hc with rfl | rfl <;> decide

/-- `"\0"`. -/
def zeroToken : StringToken :=
  .ofBody ['\\', '0'] (.escape (by decide) .nil) zero_bytes

/-- The initializer of the one stops before the last byte; the escape of the other is `0` in a
string and NUL in a character literal. -/
theorem not_token_exact : ¬Exact (letterToken 2039) ∧ ¬Exact zeroToken := by
  constructor
  · intro h
    have hle := letterToken_le h
    omega
  · intro h
    have htext : zeroToken.text = '"' :: (['\\', '0'] ++ ['"']) :=
      StringToken.ofBody_text _ _
    have hsame := h.escapes '0' (by rw [inner_eq htext]; decide)
    exact (sameByte_iff (by decide)).mp hsame rfl

end Arche.Codegen.StringGlobals
