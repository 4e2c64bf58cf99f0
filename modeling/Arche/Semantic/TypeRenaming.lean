import Arche.Semantic.TypeCheck

/-!
# Type names with another spelling

The types of a program get other names. A `Renaming` is injective and fixes the names that the
checker itself looks for; a qualified name keeps its module. What the analysis has recorded is
renamed with the program.

* `Pieces` are what a type is displayed as, literal text and names. `spelling` puts them together
  without any buffer.
* A type `Fits` if the buffers hold what the checker compares of it: a name of fewer than 32
  characters; else, if a qualified name is part of it, fewer than 64 for the whole.
* `SameName`, `SameKey`: what a display is as a name, and what stands behind its last dot, are the
  same under both spellings.

1. `sameName_display`, `sameKey_display`: so it is for types that fit.
2. `findAlias_rename` and what follows it: so the alias tables give the same.
-/

namespace Arche.Semantic.TypeCheck

open SemTypes (PrimKind CallableKind TyKind)

/-! ## Renaming -/

/-- What the checker compares names with. -/
def builtins : List Ident :=
  [⟨"int".toList, isName_int⟩, ⟨"float".toList, isName_float⟩, ⟨"char".toList, isName_char⟩,
    ⟨"str".toList, isName_str⟩, ⟨"void".toList, isName_void⟩, ⟨"bool".toList, by decide⟩,
    ⟨"byte".toList, by decide⟩, ⟨"i8".toList, by decide⟩, ⟨"i16".toList, by decide⟩,
    ⟨"i32".toList, isName_i32⟩, ⟨"i64".toList, by decide⟩, ⟨"i128".toList, by decide⟩,
    ⟨"u8".toList, by decide⟩, ⟨"u16".toList, by decide⟩, ⟨"u32".toList, by decide⟩,
    ⟨"u64".toList, by decide⟩, ⟨"u128".toList, by decide⟩, ⟨"opaque".toList, by decide⟩,
    ⟨"archetype".toList, by decide⟩, ⟨"Int".toList, by decide⟩, ⟨"Float".toList, by decide⟩,
    ⟨"Char".toList, by decide⟩, ⟨"Str".toList, by decide⟩, ⟨"Void".toList, by decide⟩]

structure Renaming where
  map : Ident → Ident
  injective : Function.Injective map
  fixes : ∀ i ∈ builtins, map i = i

def QName.rename (f : Ident → Ident) (n : QName) : QName := { n with base := f n.base }

mutual

def Ty.rename (f : Ident → Ident) : Ty → Ty
  | .unknown => .unknown
  | .prim p => .prim p
  | .nominal n b => .nominal (n.rename f) (b.rename f)
  | .slice e => .slice (e.rename f)
  | .array e len => .array (e.rename f) len
  | .tuple fs => .tuple (fs.rename f)
  | .sum n => .sum (n.rename f)
  | .handle a => .handle (a.map (QName.rename f))
  | .eff ext slots => .eff ext (slots.rename f)
  | .archetypeCategory => .archetypeCategory
  | .callable k ps rs => .callable k (ps.rename f) (rs.rename f)

/-- The names of fields are no type names. -/
def Fields.rename (f : Ident → Ident) : Fields → Fields
  | .nil => .nil
  | .cons name t rest => .cons name (t.rename f) (rest.rename f)

end

section

variable (cx : Ctx) (f : Ident → Ident)

/-- A name that is not that of a function is taken for that of a type. -/
def renameRef (n : QName) : QName := if (findCallee cx n).isSome then n else n.rename f

def ExprInfo.rename (info : ExprInfo) : ExprInfo :=
  { info with
    refName := info.refName.map (renameRef cx f)
    leading := info.leading.map (renameRef cx f)
    callee := info.callee.map (renameRef cx f)
    typeId := info.typeId.rename f }

mutual

def Expr.rename : Expr → Expr
  | .mk kind info children => .mk kind (info.rename cx f) (Expr.renameAll children)

def Expr.renameAll : List Expr → List Expr
  | [] => []
  | e :: es => e.rename :: Expr.renameAll es

end

mutual

def Stmt.rename : Stmt → Stmt
  | .mk kind node annotation exprs stmts =>
    .mk kind node ( annotation.map (Ty.rename f)) (exprs.map (Expr.rename cx f))
      (Stmt.renameAll stmts)

def Stmt.renameAll : List Stmt → List Stmt
  | [] => []
  | s :: ss => s.rename :: Stmt.renameAll ss

end

def Param.rename (p : Param) : Param := { p with type := p.type.rename f }

def Decl.rename (d : Decl) : Decl :=
  { d with
    params := d.params.map (Param.rename f)
    outParams := d.outParams.map (Param.rename f)
    returnTypes := d.returnTypes.map (Ty.rename f)
    body := d.body.map (Stmt.rename cx f)
    staticInit := d.staticInit.map (Expr.rename cx f) }

def Alias.rename (a : Alias) : Alias := { a with name := f a.name, backing := a.backing.rename f }

def Ctx.rename : Ctx where
  aliases := cx.aliases.map (Alias.rename f)
  enums := cx.enums.map f
  callableAliases := cx.callableAliases.map fun a => (f a.1, a.2.rename f)
  sums := cx.sums.map f
  decls := cx.decls.map (Decl.rename cx f)

end

/-! ## Display without buffers -/

inductive Piece
  | lit (s : Text)
  | name (n : QName)

def Piece.text : Piece → Text
  | lit s => s
  | name n => n.text

def Piece.rename (f : Ident → Ident) : Piece → Piece
  | lit s => lit s
  | name n => name (n.rename f)

def primPiece : PrimKind → Piece
  | .void => .name (.word ['v', 'o', 'i', 'd'])
  | .bool => .name (.word ['b', 'o', 'o', 'l'])
  | .int => .name (.word ['i', '3', '2'])
  | .float => .name (.word ['f', 'l', 'o', 'a', 't'])
  | .char => .name (.word ['c', 'h', 'a', 'r'])
  | .str => .name (.word ['s', 't', 'r'])
  | .count => .lit ['?']

mutual

def Ty.pieces : Ty → List Piece
  | .unknown => [.lit ['<', 'u', 'n', 'k', 'n', 'o', 'w', 'n', '>']]
  | .prim p => [primPiece p]
  | .nominal n _ => [.name n]
  | .slice e => .lit ['[', ']'] :: e.pieces
  | .array e len => .lit ('[' :: decimal len ++ [']']) :: e.pieces
  | .tuple fs => .lit ['('] :: (fs.pieces true ++ [.lit [')']])
  | .sum n => [.name n]
  | .handle (some n) => [.lit ['h', 'a', 'n', 'd', 'l', 'e', '('], .name n, .lit [')']]
  | .handle none => [.lit ['h', 'a', 'n', 'd', 'l', 'e', '(', '?', ')']]
  | .eff _ slots => .lit ['E', 'f', 'f', '('] :: (slots.pieces true ++ [.lit [')']])
  | .archetypeCategory => [.name (.word ['a', 'r', 'c', 'h', 'e', 't', 'y', 'p', 'e'])]
  | .callable .func ps rs =>
    .lit ['f', 'u', 'n', 'c', '('] ::
      (ps.pieces true ++ .lit [')', ' ', '-', '>', ' '] :: rs.firstPieces)
  | .callable .proc ps rs =>
    .lit ['p', 'r', 'o', 'c', '('] ::
      (ps.pieces true ++ .lit [')', '('] :: (rs.pieces true ++ [.lit [')']]))
  | .callable .map ps _ => .lit ['m', 'a', 'p', '('] :: (ps.pieces true ++ [.lit [')']])
  | .callable .policy ps _ =>
    .lit ['p', 'o', 'l', 'i', 'c', 'y', '('] :: (ps.pieces true ++ [.lit [')']])

def Fields.pieces : Bool → Fields → List Piece
  | _, .nil => []
  | true, .cons _ t rest => t.pieces ++ rest.pieces false
  | false, .cons _ t rest => .lit [',', ' '] :: (t.pieces ++ rest.pieces false)

def Fields.firstPieces : Fields → List Piece
  | .nil => [.name (.word ['v', 'o', 'i', 'd'])]
  | .cons _ t _ => t.pieces

end

/-- What the pieces are together. -/
def render (ps : List Piece) : Text := ps.flatMap Piece.text

def Ty.spelling (t : Ty) : Text := render t.pieces

/-- It is displayed as its name. -/
def Ty.isName : Ty → Bool
  | .nominal _ _ | .sum _ => true
  | _ => false

/-- No name in it is qualified. -/
def Ty.Plain (t : Ty) : Prop := ∀ n, .name n ∈ t.pieces → n.stem = []

/-- The buffers hold what is compared of the type. -/
def Ty.Fits (t : Ty) : Prop :=
  t.spelling.length < (if t.isName then 32 else 64) ∨ (t.isName = false ∧ t.Plain)

/-- Under both spellings. -/
def FitsUnder (π : Renaming) (t : Ty) : Prop := t.Fits ∧ (t.rename π.map).Fits

/-! ## Names and texts -/

theorem QName.text_all (q : QName) : ∀ c ∈ q.text, isNameChar c = true ∨ c = '.' := by
  intro c hc
  rcases List.mem_append.mp hc with hc | hc
  · have h := List.all_eq_true.mp q.isStem.1 c hc
    simpa using h
  · exact .inl (List.all_eq_true.mp q.base.isName.2 c hc)

theorem Ident.noDot (i : Ident) : ∀ c ∈ i.text, c ≠ '.' := by
  rintro c hc rfl
  have h := List.all_eq_true.mp i.isName.2 '.' hc
  revert h
  decide

theorem QName.text_ne_nil (q : QName) : q.text ≠ [] := by
  intro h
  exact q.base.isName.1 (List.append_eq_nil_iff.mp h).2

/-- What stands behind the last dot. -/
def key (s : Text) : Text := s.rtakeWhile (· ≠ '.')

theorem rtakeWhile_append {α : Type} {p : α → Bool} {l r : List α} {x : α} (hx : p x = false)
    (hr : ∀ y ∈ r, p y = true) : (l ++ [x] ++ r).rtakeWhile p = r := by
  have hrev : ∀ y ∈ r.reverse, p y = true := fun y hy => hr y (List.mem_reverse.mp hy)
  rw [List.rtakeWhile, List.reverse_append, List.takeWhile_append_of_pos hrev, List.reverse_append]
  simp [hx]

theorem key_of_noDot {s : Text} (h : ∀ c ∈ s, c ≠ '.') : key s = s :=
  List.rtakeWhile_eq_self_iff.mpr fun c hc => by simpa using h c hc

/-- What is after a name behind a dot. -/
theorem key_stem {s t : Text} {q : QName} (hq : q.stem ≠ []) (h : ∀ c ∈ t, c ≠ '.') :
    key (s ++ q.text ++ t) = q.base.text ++ t := by
  have hlast : q.stem.getLast? = some '.' := q.isStem.2.resolve_left hq
  obtain ⟨l, hl⟩ := List.getLast?_eq_some_iff.mp hlast
  have hrest : ∀ c ∈ q.base.text ++ t, decide (c ≠ '.') = true := by
    intro c hc
    rcases List.mem_append.mp hc with hc | hc
    · simpa using Ident.noDot q.base c hc
    · simpa using h c hc
  have hsplit : s ++ q.text ++ t = s ++ l ++ ['.'] ++ (q.base.text ++ t) := by
    simp [QName.text, hl, List.append_assoc]
  rw [key, hsplit]
  exact rtakeWhile_append (by decide) hrest

theorem key_text (q : QName) : key q.text = q.base.text := by
  by_cases hq : q.stem = []
  · rw [QName.text, hq, List.nil_append]
    exact key_of_noDot (Ident.noDot q.base)
  · have h := key_stem (s := []) (t := []) hq (fun _ hc => absurd hc List.not_mem_nil)
    simpa using h

theorem Ident.text_inj {i j : Ident} : i.text = j.text ↔ i = j := by
  constructor
  · cases i
    cases j
    intro h
    cases h
    rfl
  · exact fun h => by rw [h]

theorem QName.text_inj {q r : QName} : q.text = r.text ↔ q = r := by
  constructor
  · intro h
    have hkey : q.base.text = r.base.text := by rw [← key_text, ← key_text, h]
    have hbase := Ident.text_inj.mp hkey
    rw [QName.text, QName.text, hbase] at h
    have hstem : q.stem = r.stem := List.append_cancel_right h
    cases q
    cases r
    cases hbase
    cases hstem
    rfl
  · exact fun h => by rw [h]

theorem aliasNameMatches_iff {i : Ident} {s : Text} :
    aliasNameMatches i s = true ↔ key s = i.text := by
  unfold aliasNameMatches
  rw [Bool.or_eq_true, Bool.and_eq_true, beq_iff_eq, beq_iff_eq, decide_eq_true_eq]
  constructor
  · rintro (h | ⟨-, h⟩)
    · rw [← h]
      exact key_of_noDot (Ident.noDot i)
    · exact h.symm
  · intro h
    by_cases hdot : '.' ∈ s
    · exact .inr ⟨hdot, h.symm⟩
    · left
      rw [← h]
      exact key_of_noDot fun c hc hceq => hdot (hceq ▸ hc)

/-! ## Pieces -/

/-- Text that ends a name before it and begins one behind it. -/
def Sep (s : Text) : Prop := (∃ c ∈ s, isNameChar c = false) ∧ ∀ c ∈ s, c ≠ '.'

/-- Two names have text between them. -/
inductive Spaced : List Piece → Prop
  | nil : Spaced []
  | lit {s : Text} {ps : List Piece} : Sep s → Spaced ps → Spaced (.lit s :: ps)
  | last (n : QName) : Spaced [.name n]
  | name (n : QName) {s : Text} {ps : List Piece} :
      Sep s → Spaced ps → Spaced (.name n :: .lit s :: ps)

theorem Spaced.append {as bs : List Piece} {s : Text} (ha : Spaced as) (hs : Sep s)
    (hb : Spaced bs) : Spaced (as ++ .lit s :: bs) := by
  induction ha with
  | nil => exact .lit hs hb
  | lit hsep _ ih => exact .lit hsep ih
  | last n => exact .name n hs hb
  | name n hsep _ ih => exact .name n hsep ih

theorem Spaced.rename {ps : List Piece} (h : Spaced ps) (f : Ident → Ident) :
    Spaced (ps.map (Piece.rename f)) := by
  induction h with
  | nil => exact .nil
  | lit hsep _ ih => exact .lit hsep ih
  | last n => exact .last _
  | name n hsep _ ih => exact .name _ hsep ih

theorem sep_decimal (x : Int) : Sep ('[' :: decimal x ++ [']']) := by
  have hdigits : ∀ c ∈ decimal x, c ≠ '.' := by
    have hnat : ∀ c ∈ Nat.toDigits 10 x.natAbs, c ≠ '.' := by
      rintro c hc rfl
      have h := Nat.isDigit_of_mem_toDigits (by decide) (by decide) hc
      revert h
      decide
    unfold decimal
    split
    · intro c hc
      rcases List.mem_cons.mp hc with rfl | hc
      · decide
      · exact hnat c hc
    · exact hnat
  refine ⟨⟨'[', by simp, by decide⟩, fun c hc => ?_⟩
  rcases List.mem_append.mp hc with hc | hc
  · rcases List.mem_cons.mp hc with rfl | hc
    · decide
    · exact hdigits c hc
  · rw [List.mem_singleton.mp hc]
    decide

/-- Closed texts. -/
theorem sep_of (s : Text) (h : (s.any fun c => !isNameChar c) = true ∧ '.' ∉ s := by decide) :
    Sep s := by
  refine ⟨?_, fun c hc hdot => h.2 (hdot ▸ hc)⟩
  obtain ⟨c, hc, hn⟩ := List.any_eq_true.mp h.1
  exact ⟨c, hc, by simpa using hn⟩

mutual

theorem Ty.spaced : (t : Ty) → Spaced t.pieces
  | .unknown => .lit (sep_of _) .nil
  | .prim p => by
    cases p with
    | count => exact .lit (sep_of _) .nil
    | _ => exact .last _
  | .nominal n _ => .last n
  | .slice e => .lit (sep_of _) e.spaced
  | .array e len => .lit (sep_decimal len) e.spaced
  | .tuple fs => .lit (sep_of _) ((fs.spaced true).append (sep_of _) .nil)
  | .sum n => .last n
  | .handle (some n) => .lit (sep_of _) (.name n (sep_of _) .nil)
  | .handle none => .lit (sep_of _) .nil
  | .eff _ slots => .lit (sep_of _) ((slots.spaced true).append (sep_of _) .nil)
  | .archetypeCategory => .last _
  | .callable .func ps rs =>
    .lit (sep_of _) ((ps.spaced true).append (sep_of _) rs.spacedFirst)
  | .callable .proc ps rs =>
    .lit (sep_of _) ((ps.spaced true).append (sep_of _) ((rs.spaced true).append (sep_of _) .nil))
  | .callable .map ps _ => .lit (sep_of _) ((ps.spaced true).append (sep_of _) .nil)
  | .callable .policy ps _ => .lit (sep_of _) ((ps.spaced true).append (sep_of _) .nil)

theorem Fields.spaced : (isFirst : Bool) → (fs : Fields) → Spaced (fs.pieces isFirst)
  | _, .nil => by
    rw [Fields.pieces]
    exact .nil
  | true, .cons _ t rest => by
    have ht := t.spaced
    have hrest := rest.spaced false
    rw [Fields.pieces]
    cases rest with
    | nil =>
      rw [Fields.pieces, List.append_nil]
      exact ht
    | cons _ u rest =>
      rw [Fields.pieces] at hrest ⊢
      cases hrest with
      | lit hsep hps => exact ht.append hsep hps
  | false, .cons _ t rest => by
    have ht := t.spaced
    have hrest := rest.spaced false
    rw [Fields.pieces]
    refine .lit (sep_of _) ?_
    cases rest with
    | nil =>
      rw [Fields.pieces, List.append_nil]
      exact ht
    | cons _ u rest =>
      rw [Fields.pieces] at hrest ⊢
      cases hrest with
      | lit hsep hps => exact ht.append hsep hps

theorem Fields.spacedFirst : (fs : Fields) → Spaced fs.firstPieces
  | .nil => .last _
  | .cons _ t _ => t.spaced

end

/-! ## What names a display is -/

/-- Text that is a name is the same name under both spellings. -/
def SameName (f : Ident → Ident) (s s' : Text) : Prop :=
  ∀ q : QName, s = q.text ↔ s' = (q.rename f).text

/-- And so is what stands behind its last dot. -/
def SameKey (f : Ident → Ident) (s s' : Text) : Prop :=
  ∀ i : Ident, key s = i.text ↔ key s' = (f i).text

/-- Text that is no name. -/
def NoName (s : Text) : Prop := ∃ c ∈ s, isNameChar c = false ∧ c ≠ '.'

theorem NoName.ne_text {s : Text} (h : NoName s) (q : QName) : s ≠ q.text := by
  rintro rfl
  obtain ⟨c, hc, hname, hdot⟩ := h
  rcases QName.text_all q c hc with htrue | rfl
  · rw [hname] at htrue
    cases htrue
  · exact hdot rfl

theorem Sep.noName {s : Text} (h : Sep s) {t u : Text} : NoName (t ++ s ++ u) := by
  obtain ⟨⟨c, hc, hname⟩, hdot⟩ := h
  exact ⟨c, by simp [hc], hname, hdot c hc⟩

theorem sameName_of_noName {f : Ident → Ident} {s s' : Text} (h : NoName s) (h' : NoName s') :
    SameName f s s' := by
  intro q
  exact ⟨fun hs => absurd hs (h.ne_text q), fun hs => absurd hs (h'.ne_text _)⟩

section

variable {f : Ident → Ident} (hf : Function.Injective f)
include hf

theorem QName.rename_inj {q r : QName} : q.rename f = r.rename f ↔ q = r := by
  constructor
  · intro h
    cases q
    cases r
    obtain ⟨hstem, hbase⟩ := QName.mk.inj h
    cases hstem
    cases hf hbase
    rfl
  · exact fun h => by rw [h]

theorem sameName_text (q : QName) : SameName f q.text (q.rename f).text := by
  intro r
  rw [QName.text_inj, QName.text_inj, QName.rename_inj hf]

theorem sameKey_text (q : QName) : SameKey f q.text (q.rename f).text := by
  intro i
  rw [key_text, key_text, Ident.text_inj, Ident.text_inj]
  exact hf.eq_iff.symm

/-- What is displayed is a name exactly if it is one piece, a name. -/
theorem sameName_render {ps : List Piece} (h : Spaced ps) :
    SameName f (render ps) (render (ps.map (Piece.rename f))) := by
  cases h with
  | nil =>
    intro q
    exact ⟨fun hs => absurd hs.symm q.text_ne_nil,
      fun hs => absurd hs.symm (q.rename f).text_ne_nil⟩
  | @lit s ps hsep _ =>
    exact sameName_of_noName (Sep.noName hsep (t := []) (u := render ps))
      (Sep.noName hsep (t := []) (u := render (ps.map (Piece.rename f))))
  | last n =>
    have hone : ∀ m : QName, render [.name m] = m.text := fun m => List.append_nil _
    rw [List.map_singleton, hone, Piece.rename, hone]
    exact sameName_text hf n
  | @name n s ps hsep _ =>
    have hsplit : ∀ (m : QName) (qs : List Piece),
        render (.name m :: .lit s :: qs) = m.text ++ s ++ render qs := by
      intro m qs
      simp [render, Piece.text]
    rw [List.map_cons, List.map_cons, Piece.rename, Piece.rename, hsplit, hsplit]
    exact sameName_of_noName hsep.noName hsep.noName

end

@[simp] theorem render_nil : render [] = [] := rfl

@[simp] theorem render_cons (p : Piece) (ps : List Piece) :
    render (p :: ps) = p.text ++ render ps :=
  rfl

@[simp] theorem render_append (ps qs : List Piece) : render (ps ++ qs) = render ps ++ render qs :=
  List.flatMap_append

@[simp] theorem Piece.text_lit (s : Text) : (Piece.lit s).text = s := rfl

@[simp] theorem Piece.text_name (n : QName) : (Piece.name n).text = n.text := rfl

theorem QName.noDot {n : QName} (h : n.stem = []) : ∀ c ∈ n.text, c ≠ '.' := by
  rw [QName.text, h, List.nil_append]
  exact Ident.noDot n.base

theorem Spaced.noDot {ps : List Piece} (h : Spaced ps) (hplain : ∀ n, .name n ∈ ps → n.stem = []) :
    ∀ c ∈ render ps, c ≠ '.' := by
  induction h with
  | nil => exact fun _ hc => absurd hc List.not_mem_nil
  | lit hsep _ ih =>
    intro c hc
    rcases List.mem_append.mp hc with hc | hc
    · exact hsep.2 c hc
    · exact ih (fun n hn => hplain n (List.mem_cons_of_mem _ hn)) c hc
  | last n =>
    intro c hc
    rw [render_cons, render_nil, List.append_nil] at hc
    exact QName.noDot (hplain n List.mem_cons_self) c hc
  | name n hsep _ ih =>
    intro c hc
    rcases List.mem_append.mp hc with hc | hc
    · exact QName.noDot (hplain n List.mem_cons_self) c hc
    · rcases List.mem_append.mp hc with hc | hc
      · exact hsep.2 c hc
      · exact ih (fun m hm => hplain m (List.mem_cons_of_mem _ (List.mem_cons_of_mem _ hm))) c hc

/-- Where the last qualified name stands. -/
theorem Spaced.lastQualified {ps : List Piece} (h : Spaced ps) :
    (∀ n, .name n ∈ ps → n.stem = []) ∨
    (∃ xs n, ps = xs ++ [.name n] ∧ n.stem ≠ []) ∨
    ∃ xs n s ys, ps = xs ++ .name n :: .lit s :: ys ∧ n.stem ≠ [] ∧ Sep s ∧ Spaced ys ∧
      ∀ m, .name m ∈ ys → m.stem = [] := by
  induction h with
  | nil => exact .inl fun _ hn => absurd hn List.not_mem_nil
  | @lit s ps hsep _ ih =>
    rcases ih with hplain | ⟨xs, n, hps, hn⟩ | ⟨xs, n, t, ys, hps, hn, hrest⟩
    · refine .inl fun n hn => hplain n ?_
      rcases List.mem_cons.mp hn with h | h
      · cases h
      · exact h
    · exact .inr (.inl ⟨.lit s :: xs, n, by rw [hps, List.cons_append], hn⟩)
    · exact .inr (.inr ⟨.lit s :: xs, n, t, ys, by rw [hps, List.cons_append], hn, hrest⟩)
  | last n =>
    by_cases hn : n.stem = []
    · refine .inl fun m hm => ?_
      cases List.mem_singleton.mp hm
      exact hn
    · exact .inr (.inl ⟨[], n, rfl, hn⟩)
  | @name n s ps hsep hps ih =>
    rcases ih with hplain | ⟨xs, m, hps', hm⟩ | ⟨xs, m, t, ys, hps', hm, hrest⟩
    · by_cases hn : n.stem = []
      · refine .inl fun m hm => ?_
        rcases List.mem_cons.mp hm with h | h
        · cases h
          exact hn
        · rcases List.mem_cons.mp h with h | h
          · cases h
          · exact hplain m h
      · exact .inr (.inr ⟨[], n, s, ps, rfl, hn, hsep, hps, hplain⟩)
    · exact .inr (.inl ⟨.name n :: .lit s :: xs, m, by rw [hps']; rfl, hm⟩)
    · exact .inr (.inr ⟨.name n :: .lit s :: xs, m, t, ys, by rw [hps']; rfl, hm, hrest⟩)

theorem plain_rename {ps : List Piece} {f : Ident → Ident}
    (h : ∀ n, .name n ∈ ps → n.stem = []) :
    ∀ n, .name n ∈ ps.map (Piece.rename f) → n.stem = [] := by
  intro n hn
  obtain ⟨p, hp, hpn⟩ := List.mem_map.mp hn
  cases p with
  | lit s => cases hpn
  | name m =>
    cases hpn
    exact h m hp

/-- The key of text with a qualified name is the base of the name, and what follows. -/
theorem sameKey_render {f : Ident → Ident} (hf : Function.Injective f) {ps : List Piece}
    (h : Spaced ps) : SameKey f (render ps) (render (ps.map (Piece.rename f))) := by
  intro i
  rcases h.lastQualified with hplain | ⟨xs, n, rfl, hn⟩ | ⟨xs, n, s, ys, rfl, hn, hsep, hys, hplain⟩
  · rw [key_of_noDot (h.noDot hplain), key_of_noDot ((h.rename f).noDot (plain_rename hplain))]
    exact sameName_render hf h (.of i)
  · have hkey : ∀ (m : QName) (zs : List Piece), m.stem ≠ [] →
        key (render (zs ++ [.name m])) = m.base.text := by
      intro m zs hm
      have hstem := key_stem (s := render zs) (t := []) hm fun _ hc => absurd hc List.not_mem_nil
      simpa using hstem
    rw [List.map_append, List.map_singleton, Piece.rename, hkey n xs hn,
      hkey (n.rename f) (xs.map (Piece.rename f)) hn, Ident.text_inj, Ident.text_inj]
    exact hf.eq_iff.symm
  · have hkey : ∀ (m : QName) (zs ws : List Piece), m.stem ≠ [] → Spaced ws →
        (∀ k, .name k ∈ ws → k.stem = []) →
        NoName (key (render (zs ++ .name m :: .lit s :: ws))) := by
      intro m zs ws hm hws hwsplain
      have htail : ∀ c ∈ s ++ render ws, c ≠ '.' := by
        intro c hc
        rcases List.mem_append.mp hc with hc | hc
        · exact hsep.2 c hc
        · exact hws.noDot hwsplain c hc
      have hstem := key_stem (s := render zs) hm htail
      have hsplit : render (zs ++ .name m :: .lit s :: ws) =
          render zs ++ m.text ++ (s ++ render ws) := by
        simp [List.append_assoc]
      rw [hsplit, hstem, ← List.append_assoc]
      exact hsep.noName
    rw [List.map_append, List.map_cons, List.map_cons, Piece.rename, Piece.rename]
    have hno := hkey n xs ys hn hys hplain
    have hno' := hkey (n.rename f) (xs.map (Piece.rename f)) (ys.map (Piece.rename f)) hn
      (hys.rename f) (plain_rename hplain)
    exact ⟨fun hs => absurd hs (hno.ne_text (.of i)),
      fun hs => absurd hs (hno'.ne_text (.of (f i)))⟩

/-! ## What the buffers hold -/

theorem fit_of_lt {n : Nat} {s : Text} (h : s.length < n) : fit n s = s :=
  List.take_of_length_le (by omega)

theorem append_subset {a b c d : Text} (h : a ⊆ c) (h' : b ⊆ d) : a ++ b ⊆ c ++ d :=
  List.append_subset.mpr ⟨fun _ hx => List.mem_append_left _ (h hx),
    fun _ hx => List.mem_append_right _ (h' hx)⟩

theorem fit_subset (n : Nat) (s : Text) : fit n s ⊆ s := List.take_subset _ _

mutual

/-- A display that is short enough went through no buffer. -/
theorem Ty.text_eq : (t : Ty) → t.spelling.length < 127 → t.text = t.spelling
  | .unknown, _ => rfl
  | .prim p, _ => by cases p <;> rfl
  | .nominal n _, _ => (List.append_nil _).symm
  | .slice e, h => by
    simp only [Ty.spelling, Ty.pieces, render_cons, Piece.text_lit, List.length_append] at h
    have hlen : e.spelling.length < 127 := by
      rw [Ty.spelling]
      omega
    have he := e.text_eq hlen
    rw [Ty.text, he, fit_of_lt (by omega)]
    rfl
  | .array e len, h => by
    simp only [Ty.spelling, Ty.pieces, render_cons, Piece.text_lit, List.length_append] at h
    have hlen : e.spelling.length < 127 := by
      rw [Ty.spelling]
      omega
    have he := e.text_eq hlen
    rw [Ty.text, he, fit_of_lt (by omega)]
    simp [Ty.spelling, Ty.pieces]
  | .tuple fs, h => by
    simp only [Ty.spelling, Ty.pieces, render_cons, render_append, Piece.text_lit,
      List.length_append] at h
    have hfs := fs.text_eq true (by omega)
    rw [Ty.text, hfs]
    simp [Ty.spelling, Ty.pieces]
  | .sum n, _ => (List.append_nil _).symm
  | .handle (some n), _ => by simp [Ty.text, Ty.spelling, Ty.pieces]
  | .handle none, _ => rfl
  | .eff _ slots, h => by
    simp only [Ty.spelling, Ty.pieces, render_cons, render_append, Piece.text_lit,
      List.length_append] at h
    have hfs := slots.text_eq true (by omega)
    rw [Ty.text, hfs, fit_of_lt (by omega)]
    simp [Ty.spelling, Ty.pieces]
  | .archetypeCategory, _ => rfl
  | .callable .func ps rs, h => by
    simp only [Ty.spelling, Ty.pieces, render_cons, render_append, Piece.text_lit,
      List.length_append] at h
    have hps := ps.text_eq true (by omega)
    have hrs := rs.first_eq (by omega)
    rw [Ty.text, hps, hrs, fit_of_lt (by omega)]
    simp [Ty.spelling, Ty.pieces, callableText]
  | .callable .proc ps rs, h => by
    simp only [Ty.spelling, Ty.pieces, render_cons, render_append, Piece.text_lit,
      List.length_append] at h
    have hps := ps.text_eq true (by omega)
    have hrs := rs.text_eq true (by omega)
    rw [Ty.text, hps, hrs, fit_of_lt (by omega), fit_of_lt (by omega)]
    simp [Ty.spelling, Ty.pieces, callableText]
  | .callable .map ps _, h => by
    simp only [Ty.spelling, Ty.pieces, render_cons, render_append, Piece.text_lit,
      List.length_append] at h
    have hps := ps.text_eq true (by omega)
    rw [Ty.text, hps, fit_of_lt (by omega)]
    simp [Ty.spelling, Ty.pieces, callableText]
  | .callable .policy ps _, h => by
    simp only [Ty.spelling, Ty.pieces, render_cons, render_append, Piece.text_lit,
      List.length_append] at h
    have hps := ps.text_eq true (by omega)
    rw [Ty.text, hps, fit_of_lt (by omega)]
    simp [Ty.spelling, Ty.pieces, callableText]

theorem Fields.text_eq : (isFirst : Bool) → (fs : Fields) →
    (render (fs.pieces isFirst)).length < 127 → fs.text isFirst = render (fs.pieces isFirst)
  | isFirst, .nil, _ => by
    rw [Fields.text, Fields.pieces]
    rfl
  | true, .cons _ t rest, h => by
    simp only [Fields.pieces, render_append, List.length_append] at h
    have ht := t.text_eq (by rw [Ty.spelling]; omega)
    have hrest := rest.text_eq false (by omega)
    rw [Fields.text, hrest, ht, fit_of_lt (by rw [Ty.spelling]; omega)]
    simp [Fields.pieces, Ty.spelling]
  | false, .cons _ t rest, h => by
    simp only [Fields.pieces, render_cons, render_append, Piece.text_lit, List.length_append] at h
    have ht := t.text_eq (by rw [Ty.spelling]; omega)
    have hrest := rest.text_eq false (by omega)
    rw [Fields.text, hrest, ht, fit_of_lt (by rw [Ty.spelling]; omega)]
    simp [Fields.pieces, Ty.spelling]

theorem Fields.first_eq : (fs : Fields) → (render fs.firstPieces).length < 127 →
    fs.first = render fs.firstPieces
  | .nil, _ => rfl
  | .cons _ t _, h => by
    have ht := t.text_eq h
    have hlen : t.spelling.length < 128 := by
      have : t.spelling.length < 127 := h
      omega
    rw [Fields.first, ht, fit_of_lt hlen]
    rfl

end

mutual

/-- A display holds nothing but its pieces. -/
theorem Ty.text_subset : (t : Ty) → t.text ⊆ t.spelling
  | .unknown => fun _ h => h
  | .prim p => by cases p <;> exact fun _ h => h
  | .nominal n _ => by
    rw [Ty.text, Ty.spelling, Ty.pieces, render_cons, render_nil, List.append_nil]
    exact fun _ h => h
  | .slice e => by
    rw [Ty.text, Ty.spelling, Ty.pieces, render_cons]
    exact append_subset (fun _ h => h) fun _ h => e.text_subset (fit_subset _ _ h)
  | .array e len => by
    have hsplit : (Ty.array e len).text = ('[' :: decimal len ++ [']']) ++ fit 128 e.text := by
      rw [Ty.text, List.append_assoc]
      rfl
    rw [hsplit, Ty.spelling, Ty.pieces, render_cons]
    exact append_subset (fun _ h => h) fun _ h => e.text_subset (fit_subset _ _ h)
  | .tuple fs => by
    rw [Ty.text, Ty.spelling, Ty.pieces, render_cons, render_append]
    exact append_subset (a := ['(']) (fun _ h => h)
      (append_subset (fs.text_subset true) fun _ h => h)
  | .sum n => by
    rw [Ty.text, Ty.spelling, Ty.pieces, render_cons, render_nil, List.append_nil]
    exact fun _ h => h
  | .handle (some n) => by
    rw [Ty.text, Ty.spelling, Ty.pieces, List.append_assoc]
    exact fun _ h => h
  | .handle none => fun _ h => h
  | .eff _ slots => by
    rw [Ty.text, Ty.spelling, Ty.pieces, render_cons, render_append, List.append_assoc]
    exact append_subset (fun _ h => h)
      (append_subset (fun _ h => slots.text_subset true (fit_subset _ _ h)) fun _ h => h)
  | .archetypeCategory => fun _ h => h
  | .callable k ps rs => by
    have hps : fit 400 (ps.text true) ⊆ render (ps.pieces true) :=
      fun _ h => ps.text_subset true (fit_subset _ _ h)
    have hrs : fit 400 (rs.text true) ⊆ render (rs.pieces true) :=
      fun _ h => rs.text_subset true (fit_subset _ _ h)
    have hfirst := rs.first_subset
    cases k with
    | func =>
      rw [Ty.text, callableText, Ty.spelling, Ty.pieces, render_cons, render_append, render_cons,
        List.append_assoc, List.append_assoc]
      exact append_subset (fun _ h => h) (append_subset hps (append_subset (fun _ h => h) hfirst))
    | proc =>
      rw [Ty.text, callableText, Ty.spelling, Ty.pieces, render_cons, render_append, render_cons,
        render_append, List.append_assoc, List.append_assoc, List.append_assoc]
      exact append_subset (fun _ h => h)
        (append_subset hps (append_subset (fun _ h => h) (append_subset hrs fun _ h => h)))
    | map =>
      rw [Ty.text, callableText, Ty.spelling, Ty.pieces, render_cons, render_append,
        List.append_assoc]
      exact append_subset (fun _ h => h) (append_subset hps fun _ h => h)
    | policy =>
      rw [Ty.text, callableText, Ty.spelling, Ty.pieces, render_cons, render_append,
        List.append_assoc]
      exact append_subset (fun _ h => h) (append_subset hps fun _ h => h)

theorem Fields.text_subset : (isFirst : Bool) → (fs : Fields) →
    fs.text isFirst ⊆ render (fs.pieces isFirst)
  | isFirst, .nil => by
    rw [Fields.text]
    exact List.nil_subset _
  | true, .cons _ t rest => by
    have ht : fit 128 t.text ⊆ render t.pieces := fun _ h => t.text_subset (fit_subset _ _ h)
    rw [Fields.text, Fields.pieces, render_append]
    exact append_subset ht (rest.text_subset false)
  | false, .cons _ t rest => by
    have ht : fit 128 t.text ⊆ render t.pieces := fun _ h => t.text_subset (fit_subset _ _ h)
    rw [Fields.text, Fields.pieces, render_cons, render_append, List.append_assoc]
    exact append_subset (fun _ h => h) (append_subset ht (rest.text_subset false))

theorem Fields.first_subset : (fs : Fields) → fs.first ⊆ render fs.firstPieces
  | .nil => fun _ h => h
  | .cons _ t _ => fun _ h => t.text_subset (fit_subset _ _ h)

end

/-- A type that is displayed as one word. -/
def Ty.isWord : Ty → Bool
  | .nominal _ _ | .sum _ | .archetypeCategory => true
  | .prim p => p != .count
  | _ => false

theorem noName_fit {n : Nat} {a r : Text} (h : NoName a) (ha : a.length < n) :
    NoName (fit n (a ++ r)) := by
  obtain ⟨c, hc, hno⟩ := h
  refine ⟨c, ?_, hno⟩
  rw [fit, List.take_append, List.take_of_length_le (by omega)]
  exact List.mem_append_left _ hc

/-- The other types show a bracket among the first seven characters. -/
theorem display_noName {t : Ty} (ht : t.isWord = false) {n : Nat} (hn : 16 ≤ n) :
    NoName (display n t) := by
  have hshow : ∀ a r : Text, t.text = a ++ r → a.length ≤ 9 →
      (a.any fun c => !isNameChar c && c != '.') = true → NoName (display n t) := by
    intro a r htext hlen hno
    obtain ⟨c, hc, hname⟩ := List.any_eq_true.mp hno
    rw [display, htext]
    exact noName_fit ⟨c, hc, by simpa using hname⟩ (by omega)
  cases t with
  | unknown => exact hshow _ [] (List.append_nil _).symm (by decide) (by decide)
  | prim p =>
    cases p with
    | count => exact hshow _ [] (List.append_nil _).symm (by decide) (by decide)
    | _ => cases ht
  | nominal n b => cases ht
  | slice e => exact hshow ['['] _ rfl (by decide) (by decide)
  | array e len => exact hshow ['['] _ rfl (by decide) (by decide)
  | tuple fs => exact hshow ['('] _ rfl (by decide) (by decide)
  | sum n => cases ht
  | handle a =>
    exact hshow ['h', 'a', 'n', 'd', 'l', 'e', '('] _ (List.append_assoc _ _ _) (by decide)
      (by decide)
  | eff ext slots =>
    exact hshow ['E', 'f', 'f', '('] _ (List.append_assoc _ _ _) (by decide) (by decide)
  | archetypeCategory => cases ht
  | callable k ps rs =>
    cases k with
    | func =>
      exact hshow ['f', 'u', 'n', 'c', '('] _
        (by rw [Ty.text, callableText, List.append_assoc, List.append_assoc]) (by decide)
        (by decide)
    | proc =>
      exact hshow ['p', 'r', 'o', 'c', '('] _
        (by rw [Ty.text, callableText, List.append_assoc, List.append_assoc, List.append_assoc])
        (by decide) (by decide)
    | map =>
      exact hshow ['m', 'a', 'p', '('] _ (by rw [Ty.text, callableText, List.append_assoc])
        (by decide) (by decide)
    | policy =>
      exact hshow ['p', 'o', 'l', 'i', 'c', 'y', '('] _
        (by rw [Ty.text, callableText, List.append_assoc]) (by decide) (by decide)

theorem display_whole {t : Ty} {n : Nat} (h : t.spelling.length < n) (hn : n ≤ 127) :
    display n t = t.spelling := by
  rw [display, t.text_eq (by omega), fit_of_lt h]

section Display

variable (π : Renaming)

theorem Renaming.fixes_word {s : Text} {h : s ≠ [] ∧ s.all isNameChar = true}
    (hs : (⟨s, h⟩ : Ident) ∈ builtins) : (QName.word s h).rename π.map = QName.word s h := by
  rw [QName.rename, QName.word, QName.of, π.fixes _ hs]

mutual

theorem Ty.pieces_rename : (t : Ty) →
    (t.rename π.map).pieces = t.pieces.map (Piece.rename π.map)
  | .unknown => rfl
  | .prim p => by
    cases p with
    | count => rfl
    | _ => exact congrArg (fun n => [Piece.name n]) (π.fixes_word (by decide)).symm
  | .nominal n _ => rfl
  | .slice e => by
    rw [Ty.rename, Ty.pieces, Ty.pieces, e.pieces_rename]
    rfl
  | .array e len => by
    rw [Ty.rename, Ty.pieces, Ty.pieces, e.pieces_rename]
    rfl
  | .tuple fs => by
    rw [Ty.rename, Ty.pieces, Ty.pieces, fs.pieces_rename]
    simp [Piece.rename]
  | .sum n => rfl
  | .handle (some n) => rfl
  | .handle none => rfl
  | .eff _ slots => by
    rw [Ty.rename, Ty.pieces, Ty.pieces, slots.pieces_rename]
    simp [Piece.rename]
  | .archetypeCategory => congrArg (fun n => [Piece.name n]) (π.fixes_word (by decide)).symm
  | .callable k ps rs => by
    have hps := ps.pieces_rename true
    have hrs := rs.pieces_rename true
    have hfirst := rs.firstPieces_rename
    cases k <;> rw [Ty.rename, Ty.pieces, Ty.pieces, hps] <;>
      simp [Piece.rename, hrs, hfirst]

theorem Fields.pieces_rename : (isFirst : Bool) → (fs : Fields) →
    (fs.rename π.map).pieces isFirst = (fs.pieces isFirst).map (Piece.rename π.map)
  | _, .nil => by
    rw [Fields.rename, Fields.pieces]
    rfl
  | true, .cons _ t rest => by
    rw [Fields.rename, Fields.pieces, Fields.pieces, t.pieces_rename, rest.pieces_rename,
      List.map_append]
  | false, .cons _ t rest => by
    rw [Fields.rename, Fields.pieces, Fields.pieces, t.pieces_rename, rest.pieces_rename,
      List.map_cons, List.map_append]
    rfl

theorem Fields.firstPieces_rename : (fs : Fields) →
    (fs.rename π.map).firstPieces = fs.firstPieces.map (Piece.rename π.map)
  | .nil => congrArg (fun n => [Piece.name n]) (π.fixes_word (by decide)).symm
  | .cons _ t _ => t.pieces_rename

end

theorem Ty.isWord_rename (t : Ty) : (t.rename π.map).isWord = t.isWord := by
  cases t <;> rfl

theorem Ty.isName_rename (t : Ty) : (t.rename π.map).isName = t.isName := by
  cases t <;> rfl

theorem sameName_whole {t : Ty} {n : Nat} (hn : n ≤ 127) (h : t.spelling.length < n)
    (h' : (t.rename π.map).spelling.length < n) :
    SameName π.map (display n t) (display n (t.rename π.map)) := by
  rw [display_whole h hn, display_whole h' hn, Ty.spelling, Ty.spelling, t.pieces_rename]
  exact sameName_render π.injective t.spaced

variable {π}

/-- In a buffer of 32 bytes or more a type that fits is the same name under both spellings. -/
theorem sameName_display {t : Ty} (h : FitsUnder π t) {n : Nat} (hn : 32 ≤ n) (hn' : n ≤ 127) :
    SameName π.map (display n t) (display n (t.rename π.map)) := by
  obtain ⟨hfit, hfit'⟩ := h
  cases hword : t.isWord with
  | false =>
    exact sameName_of_noName (display_noName hword (by omega))
      (display_noName (by rw [t.isWord_rename, hword]) (by omega))
  | true =>
    have hlen : ∀ u : Ty, u.isWord = true → u.Fits → u.spelling.length < 32 := by
      intro u hu hfits
      cases u with
      | nominal m b =>
        rcases hfits with h | h
        · exact h
        · cases h.1
      | sum m =>
        rcases hfits with h | h
        · exact h
        · cases h.1
      | prim p => cases p <;> decide
      | archetypeCategory => decide
      | _ => cases hu
    have h := hlen t hword hfit
    have h' := hlen _ (by rw [t.isWord_rename, hword]) hfit'
    exact sameName_whole π hn' (by omega) (by omega)

/-- And with 64 bytes so is what stands behind the last dot. -/
theorem sameKey_display {t : Ty} (h : FitsUnder π t) :
    SameKey π.map (display 64 t) (display 64 (t.rename π.map)) := by
  obtain ⟨hfit, hfit'⟩ := h
  have hnameless : t.isName = false ∧ t.Plain →
      SameKey π.map (display 64 t) (display 64 (t.rename π.map)) := by
    rintro ⟨hname, hplain⟩
    have hplain' : (t.rename π.map).Plain := by
      unfold Ty.Plain
      rw [t.pieces_rename]
      exact plain_rename hplain
    have hkey : ∀ u : Ty, u.Plain → key (display 64 u) = display 64 u := by
      intro u hu
      refine key_of_noDot fun c hc => ?_
      exact u.spaced.noDot hu c (u.text_subset (fit_subset _ _ hc))
    intro i
    rw [hkey t hplain, hkey _ hplain']
    refine sameName_display ⟨hfit, hfit'⟩ (by decide) (by decide) (.of i)
  rcases hfit with hlen | hplain
  · rcases hfit' with hlen' | ⟨hname', hplain'⟩
    · have h64 : t.spelling.length < 64 := by
        split at hlen <;> omega
      have h64' : (t.rename π.map).spelling.length < 64 := by
        split at hlen' <;> omega
      rw [display_whole h64 (by decide), display_whole h64' (by decide), Ty.spelling, Ty.spelling,
        t.pieces_rename]
      exact sameKey_render π.injective t.spaced
    · refine hnameless ⟨by rw [← t.isName_rename π, hname'], fun n hn => ?_⟩
      refine hplain' (n.rename π.map) ?_
      rw [t.pieces_rename]
      exact List.mem_map_of_mem (f := Piece.rename π.map) hn
  · exact hnameless hplain

/-- A name that fits is displayed whole with 32 bytes. -/
theorem sameKey_nominal {n : QName} {b : Ty} (h : FitsUnder π (.nominal n b)) :
    SameKey π.map (display 32 (.nominal n b))
      (display 32 (.nominal (n.rename π.map) (b.rename π.map))) := by
  have hwhole : ∀ (m : QName) (c : Ty), (Ty.nominal m c).Fits →
      display 32 (.nominal m c) = m.text := by
    intro m c hfits
    have hone : (Ty.nominal m c).spelling = m.text := List.append_nil _
    rcases hfits with hlen | hno
    · have hshort : (Ty.nominal m c).spelling.length < 32 := hlen
      rw [display_whole hshort (by decide), hone]
    · cases hno.1
  rw [hwhole n b h.1, hwhole _ _ h.2]
  exact sameKey_text π.injective n

/-! ## The tables -/

theorem SameName.word {s s' : Text} (h : SameName π.map s s') {w : Text}
    (hw : w ∈ builtins.map Ident.text) : s' = w ↔ s = w := by
  obtain ⟨i, hi, rfl⟩ := List.mem_map.mp hw
  have hq := h (.of i)
  rw [QName.rename, QName.of, π.fixes i hi] at hq
  exact hq.symm

theorem SameName.beq {s s' : Text} (h : SameName π.map s s') {w : Text}
    (hw : w ∈ builtins.map Ident.text) : (s' == w) = (s == w) := by
  rw [Bool.eq_iff_iff, beq_iff_eq, beq_iff_eq]
  exact h.word hw

def widthNames : List Text :=
  ["byte".toList, "i8".toList, "i16".toList, "i32".toList, "i64".toList, "i128".toList,
    "u8".toList, "u16".toList, "u32".toList, "u64".toList, "u128".toList]

theorem isWidthIntName_iff (s : Text) : isWidthIntName s = true ↔ s ∈ widthNames := by
  constructor
  · intro h
    cases s with
    | nil => revert h; decide
    | cons c n =>
      simp only [isWidthIntName, Bool.or_eq_true, Bool.and_eq_true, beq_iff_eq] at h
      rcases h with h | ⟨rfl | rfl, (((rfl | rfl) | rfl) | rfl) | rfl⟩
      · rw [h]
        decide
      all_goals decide
  · intro h
    have hall : ∀ w ∈ widthNames, isWidthIntName w = true := by decide
    exact hall s h

theorem SameName.isWidthIntName {s s' : Text} (h : SameName π.map s s') :
    isWidthIntName s' = isWidthIntName s := by
  have hwords : ∀ w ∈ widthNames, w ∈ builtins.map Ident.text := by decide
  rw [Bool.eq_iff_iff, isWidthIntName_iff, isWidthIntName_iff]
  constructor
  · intro hs
    exact (h.word (hwords s' hs)).mp rfl ▸ hs
  · intro hs
    exact (h.word (hwords s hs)).mpr rfl ▸ hs

theorem SameName.isIntish {s s' : Text} (h : SameName π.map s s') : isIntish s' = isIntish s := by
  rw [TypeCheck.isIntish, h.beq (w := "int".toList) (by decide),
    h.beq (w := "char".toList) (by decide), h.isWidthIntName, TypeCheck.isIntish]

section Tables

variable {cx : Ctx}

theorem findAlias_rename {s s' : Text} (h : SameKey π.map s s') :
    findAlias (cx.rename π.map) s' = (findAlias cx s).map (Alias.rename π.map) := by
  have hsame : ∀ a : Alias, aliasNameMatches (Alias.rename π.map a).name s' =
      aliasNameMatches a.name s := by
    intro a
    rw [Bool.eq_iff_iff, aliasNameMatches_iff, aliasNameMatches_iff]
    exact (h a.name).symm
  rw [findAlias, Ctx.rename, List.find?_map, findAlias]
  congr 1
  congr 1
  funext a
  exact hsame a

theorem isTypeAlias_rename {s s' : Text} (h : SameKey π.map s s') :
    isTypeAlias (cx.rename π.map) s' = isTypeAlias cx s := by
  rw [isTypeAlias, findAlias_rename h, Option.isSome_map, isTypeAlias]

theorem isDistinct_rename {s s' : Text} (h : SameKey π.map s s') :
    isDistinct (cx.rename π.map) s' = isDistinct cx s := by
  rw [isDistinct, isTypeAlias_rename h, aliasIsTransparent, findAlias_rename h, isDistinct,
    aliasIsTransparent]
  cases findAlias cx s <;> rfl

theorem aliasBackingStep_rename {s s' : Text} (h : SameKey π.map s s') :
    aliasBackingStep (cx.rename π.map) s' = (aliasBackingStep cx s).map (QName.rename π.map) := by
  rw [aliasBackingStep, findAlias_rename h, aliasBackingStep]
  cases findAlias cx s <;> rfl

theorem resolveFrom_rename {guard : Nat} {s s' : Text} (h : SameKey π.map s s') :
    resolveFrom (cx.rename π.map) guard s' =
      (resolveFrom cx guard s).map (QName.rename π.map) := by
  induction guard generalizing s s' with
  | zero => rfl
  | succ guard ih =>
    rw [resolveFrom, findAlias_rename h, resolveFrom]
    cases findAlias cx s with
    | none => rfl
    | some a =>
      have hback := ih (sameKey_text π.injective a.backing)
      have hbacking : (Alias.rename π.map a).backing = a.backing.rename π.map := rfl
      rw [Option.map_some, Option.map_some, Option.map_some, Option.map_some, hbacking, hback]
      cases resolveFrom cx guard a.backing.text <;> rfl

theorem resolveTypeAlias_rename {s s' : Text} (h : SameKey π.map s s') :
    resolveTypeAlias (cx.rename π.map) s' = (resolveTypeAlias cx s).map (QName.rename π.map) := by
  have hlen : (cx.rename π.map).aliases.length = cx.aliases.length := List.length_map _
  rw [resolveTypeAlias, hlen, resolveFrom_rename h, resolveTypeAlias]

/-- What an alias is resolved to is the same name. -/
theorem sameName_resolved {s s' : Text} (hname : SameName π.map s s') (hkey : SameKey π.map s s') :
    SameName π.map (((resolveTypeAlias cx s).map QName.text).getD s)
      (((resolveTypeAlias (cx.rename π.map) s').map QName.text).getD s') := by
  rw [resolveTypeAlias_rename hkey]
  cases resolveTypeAlias cx s with
  | none => exact hname
  | some q => exact sameName_text π.injective q

theorem isEnumType_rename {s s' : Text} (h : SameName π.map s s') :
    isEnumType (cx.rename π.map) s' = isEnumType cx s := by
  rw [isEnumType, Ctx.rename, List.any_map, isEnumType]
  congr 1
  funext e
  have he := h (.of e)
  rw [Function.comp_apply, Bool.eq_iff_iff, beq_iff_eq, beq_iff_eq, eq_comm, Iff.comm, eq_comm]
  exact he

theorem chainReaches_rename {s s' : Text} (h : SameName π.map s s') {guard : Nat}
    (step : Option QName) :
    chainReaches (cx.rename π.map) s' guard (step.map (QName.rename π.map)) =
      chainReaches cx s guard step := by
  induction guard generalizing step with
  | zero => cases step <;> rfl
  | succ guard ih =>
    cases step with
    | none => rfl
    | some q =>
      have hq := h q
      have heq : ((q.rename π.map).text == s') = (q.text == s) := by
        rw [Bool.eq_iff_iff, beq_iff_eq, beq_iff_eq, eq_comm, Iff.comm, eq_comm]
        exact hq
      rw [Option.map_some, chainReaches, heq, aliasBackingStep_rename (sameKey_text π.injective q),
        ih, chainReaches]

end Tables

end Display

end Arche.Semantic.TypeCheck
