import Arche.Semantic.TypeRenaming
import Mathlib.Logic.Equiv.Basic

/-!
# The spelling of type names

`tycheck_run` on a program and on the same program with other type names.

* `types` are the types that `check` and `synth` meet: those of annotations, parameters and results,
  and those of all expressions.

1. `synth_rename`, `visitStmt_rename`: what an expression and a statement give under the other
   names.
2. `places_rename`: if all types of a program fit under both spellings, and no renamed type takes
   the name of a function, the errors are reported at the same nodes.
3. `not_spelling_free`: with a long name an integer literal is rejected that fits with a short one.
-/

namespace Arche.Semantic.TypeCheck

open SemTypes (PrimKind CallableKind TyKind)

/-- No renamed type takes the name of a function. -/
def Renaming.NoCapture (π : Renaming) (cx : Ctx) : Prop :=
  ∀ n, findCallee cx n = none → findCallee cx (n.rename π.map) = none

/-- The errors of a program stay at their nodes. -/
def SpellingFree (cx : Ctx) (π : Renaming) : Prop :=
  (tycheckRun (cx.rename π.map)).map Diag.place = (tycheckRun cx).map Diag.place

/-! ## Types that are met -/

section

variable (cx : Ctx)

mutual

/-- The types of an expression and of its parts. -/
def Expr.types : Expr → List Ty
  | .mk kind info children => (synth cx (.mk kind info children)).2 :: Expr.typesAll children

def Expr.typesAll : List Expr → List Ty
  | [] => []
  | e :: es => e.types ++ Expr.typesAll es

end

mutual

def Stmt.types : Stmt → List Ty
  | .mk _ _ annotation exprs stmts =>
    annotation.toList ++ exprs.flatMap (Expr.types cx) ++ Stmt.typesAll stmts

def Stmt.typesAll : List Stmt → List Ty
  | [] => []
  | s :: ss => s.types ++ Stmt.typesAll ss

end

def Decl.types (d : Decl) : List Ty :=
  d.params.map (·.type) ++ d.returnTypes ++ Stmt.typesAll cx d.body ++
    (d.staticInit.map (Expr.types cx)).getD []

def Ctx.types : List Ty := cx.decls.flatMap (Decl.types cx)

end

/-! ## Types -/

section Types

variable {f g : Ident → Ident}

mutual

theorem Ty.rename_rename (h : ∀ i, g (f i) = i) : (t : Ty) → (t.rename f).rename g = t
  | .unknown => rfl
  | .prim _ => rfl
  | .nominal n b => by
    rw [Ty.rename, Ty.rename, b.rename_rename h, QName.rename, QName.rename, h]
  | .slice e => by rw [Ty.rename, Ty.rename, e.rename_rename h]
  | .array e _ => by rw [Ty.rename, Ty.rename, e.rename_rename h]
  | .tuple fs => by rw [Ty.rename, Ty.rename, fs.rename_rename h]
  | .sum n => by rw [Ty.rename, Ty.rename, QName.rename, QName.rename, h]
  | .handle none => rfl
  | .handle (some n) => by
    rw [Ty.rename, Ty.rename, Option.map_some, Option.map_some, QName.rename, QName.rename, h]
  | .eff _ slots => by rw [Ty.rename, Ty.rename, slots.rename_rename h]
  | .archetypeCategory => rfl
  | .callable _ ps rs => by
    rw [Ty.rename, Ty.rename, ps.rename_rename h, rs.rename_rename h]

theorem Fields.rename_rename (h : ∀ i, g (f i) = i) : (fs : Fields) → (fs.rename f).rename g = fs
  | .nil => rfl
  | .cons _ t rest => by
    rw [Fields.rename, Fields.rename, t.rename_rename h, rest.rename_rename h]

end

theorem Ty.rename_inj (hf : Function.Injective f) {t u : Ty} :
    t.rename f = u.rename f ↔ t = u := by
  constructor
  · intro h
    have : Nonempty Ident := ⟨⟨"int".toList, by decide⟩⟩
    have hleft := Function.leftInverse_invFun hf
    rw [← t.rename_rename hleft, h, u.rename_rename hleft]
  · exact fun h => by rw [h]

theorem Ty.rename_eq_unknown {t : Ty} : t.rename f = .unknown ↔ t = .unknown := by
  cases t <;> simp [Ty.rename]

theorem Ty.rename_eq_prim {t : Ty} {p : PrimKind} : t.rename f = .prim p ↔ t = .prim p := by
  cases t <;> simp [Ty.rename]

theorem tyidKind_rename (t : Ty) : tyidKind (t.rename f) = tyidKind t := by
  cases t <;> rfl

theorem Fields.types_rename : (fs : Fields) → (fs.rename f).types = fs.types.map (Ty.rename f)
  | .nil => rfl
  | .cons _ t rest => by
    rw [Fields.rename, Fields.types, rest.types_rename, Fields.types, List.map_cons]

theorem Fields.ofList_rename (fs : List (Option Ident × Ty)) :
    (Fields.ofList fs).rename f = .ofList (fs.map fun x => (x.1, x.2.rename f)) := by
  induction fs with
  | nil => rfl
  | cons x fs ih => rw [Fields.ofList, Fields.rename, ih, List.map_cons, Fields.ofList]

theorem Fields.ofTypes_rename (ts : List Ty) :
    (Fields.ofTypes ts).rename f = .ofTypes (ts.map (Ty.rename f)) := by
  rw [Fields.ofTypes, Fields.ofList_rename, Fields.ofTypes, List.map_map, List.map_map]
  rfl

theorem backedBy_rename (hf : Function.Injective f) (u : Ty) : (t : Ty) →
    backedBy (u.rename f) (t.rename f) = backedBy u t
  | .nominal n b => by
    have hb := backedBy_rename hf u b
    have hn : Ty.nominal (n.rename f) (b.rename f) = u.rename f ↔ Ty.nominal n b = u :=
      Ty.rename_inj hf (t := .nominal n b)
    rw [Ty.rename, backedBy, backedBy, hb]
    simp only [hn]
  | .unknown => rfl
  | .prim p => decide_eq_decide.mpr (Ty.rename_inj hf (t := .prim p))
  | .slice e => decide_eq_decide.mpr (Ty.rename_inj hf (t := .slice e))
  | .array e len => decide_eq_decide.mpr (Ty.rename_inj hf (t := .array e len))
  | .tuple fs => decide_eq_decide.mpr (Ty.rename_inj hf (t := .tuple fs))
  | .sum n => decide_eq_decide.mpr (Ty.rename_inj hf (t := .sum n))
  | .handle a => decide_eq_decide.mpr (Ty.rename_inj hf (t := .handle a))
  | .eff ext slots => decide_eq_decide.mpr (Ty.rename_inj hf (t := .eff ext slots))
  | .archetypeCategory => decide_eq_decide.mpr (Ty.rename_inj hf (t := .archetypeCategory))
  | .callable k ps rs => decide_eq_decide.mpr (Ty.rename_inj hf (t := .callable k ps rs))

theorem effUsableAs_rename (hf : Function.Injective f) (t u : Ty) :
    effUsableAs (t.rename f) (u.rename f) = effUsableAs t u := by
  have hinj : Function.Injective (Ty.rename f) := fun a b h => (Ty.rename_inj hf).mp h
  cases t with
  | eff te tos =>
    cases u with
    | eff ue uos =>
      rw [Ty.rename, Ty.rename, effUsableAs, Fields.types_rename, Fields.types_rename, effUsableAs]
      simp only [(List.map_injective_iff.mpr hinj).eq_iff]
    | _ => rfl
  | _ => rfl

theorem tyidUsableAs_rename (hf : Function.Injective f) (t u : Ty) :
    tyidUsableAs (t.rename f) (u.rename f) = tyidUsableAs t u := by
  rw [tyidUsableAs, effUsableAs_rename hf, backedBy_rename hf, tyidUsableAs]

end Types

/-! ## The rules -/

section Rules

variable {π : Renaming} {cx : Ctx}

theorem literalLexeme_rename (e : Expr) :
    literalLexeme (e.rename cx π.map) = literalLexeme e := by
  cases e with
  | mk kind info children => cases kind <;> rfl

theorem checkLiteralFits_rename (e : Expr) {t : Ty} (h : FitsUnder π t) :
    checkLiteralFits (cx.rename π.map) (e.rename cx π.map) (t.rename π.map) =
      checkLiteralFits cx e t := by
  rw [checkLiteralFits, literalLexeme_rename, checkLiteralFits]
  cases literalLexeme e with
  | none => rfl
  | some lex =>
    cases t with
    | nominal n b =>
      have hname := sameName_display h (n := 32) (by decide) (by decide)
      have hkey := sameKey_nominal h
      rw [Ty.rename] at hname ⊢
      have hresolved := @sameName_resolved π cx _ _ hname hkey
      dsimp only [tyidKind]
      rw [hname.isWidthIntName, isTypeAlias_rename hkey, isEnumType_rename hname,
        hresolved.beq (w := "int".toList) (by decide),
        hresolved.beq (w := "float".toList) (by decide),
        hresolved.beq (w := "char".toList) (by decide), hresolved.isWidthIntName]
    | callable k ps rs => cases k <;> rfl
    | _ => rfl

theorem primSilentlyCompatible_rename {a b : Ty} (ha : FitsUnder π a) (hb : FitsUnder π b) :
    primSilentlyCompatible (a.rename π.map) (b.rename π.map) = primSilentlyCompatible a b := by
  rw [primSilentlyCompatible, (sameName_display ha (by decide) (by decide)).isIntish,
    (sameName_display hb (by decide) (by decide)).isIntish, primSilentlyCompatible]

theorem primBinopCompatible_rename {a b : Ty} (ha : FitsUnder π a) (hb : FitsUnder π b) :
    primBinopCompatible (a.rename π.map) (b.rename π.map) = primBinopCompatible a b := by
  have hstr : "str".toList ∈ builtins.map Ident.text := by decide
  rw [primBinopCompatible, (sameName_display ha (by decide) (by decide)).beq hstr,
    (sameName_display hb (by decide) (by decide)).beq hstr, primBinopCompatible]

/-- A distinct subtype is resolved to a name. -/
theorem resolveTypeAlias_of_isDistinct {s : Text} (h : isDistinct cx s = true) :
    ∃ q, resolveTypeAlias cx s = some q := by
  obtain ⟨halias, -⟩ := Bool.and_eq_true_iff.mp h
  obtain ⟨a, ha⟩ := Option.isSome_iff_exists.mp halias
  exact ⟨_, by rw [resolveTypeAlias, resolveFrom, ha, Option.map_some]⟩

theorem SameName.beq_text {s s' : Text} (h : SameName π.map s s') (q : QName) :
    ((q.rename π.map).text == s') = (q.text == s) := by
  rw [Bool.eq_iff_iff, beq_iff_eq, beq_iff_eq, eq_comm, eq_comm (a := q.text)]
  exact (h q).symm

theorem subtypeCheck_rename {got expected : Ty} (hg : FitsUnder π got)
    (he : FitsUnder π expected) :
    subtypeCheck (cx.rename π.map) (got.rename π.map) (expected.rename π.map) =
      subtypeCheck cx got expected := by
  have hename := sameName_display he (n := 64) (by decide) (by decide)
  have hgkey := sameKey_display hg
  have hopaque : "opaque".toList ∈ builtins.map Ident.text := by decide
  rw [subtypeCheck, subtypeCheck]
  dsimp only
  rw [isDistinct_rename hgkey, isDistinct_rename (sameKey_display he),
    aliasBackingStep_rename hgkey, chainReaches_rename hename, resolveTypeAlias_rename hgkey]
  cases hsub : isDistinct cx (display 64 got) with
  | false => rfl
  | true =>
    obtain ⟨q, hq⟩ := resolveTypeAlias_of_isDistinct hsub
    have hqname := sameName_text π.injective q
    rw [hq]
    simp only [Option.map_some, Option.getD_some, hqname.beq hopaque, hename.beq hopaque,
      hename.beq_text, hqname.isIntish, hename.isIntish]

theorem elementMatches_rename {got expected : Ty} (hg : FitsUnder π got)
    (he : FitsUnder π expected) :
    elementMatches (cx.rename π.map) (got.rename π.map) (expected.rename π.map) =
      elementMatches cx got expected := by
  rw [elementMatches, subtypeCheck_rename hg he, primSilentlyCompatible_rename hg he,
    elementMatches]
  simp only [Ty.rename_inj π.injective]

theorem targetIsOpaqueNominal_rename {t : Ty} (h : FitsUnder π t) :
    targetIsOpaqueNominal (cx.rename π.map) (t.rename π.map) = targetIsOpaqueNominal cx t := by
  have hname := sameName_display h (n := 64) (by decide) (by decide)
  have hkey := sameKey_display h
  have hopaque : "opaque".toList ∈ builtins.map Ident.text := by decide
  rw [targetIsOpaqueNominal, tyidKind_rename, targetIsOpaqueNominal]
  dsimp only
  rw [hname.beq hopaque, isDistinct_rename hkey,
    (@sameName_resolved π cx _ _ hname hkey).beq hopaque]

theorem failsOpen_rename (t : Ty) : failsOpen (t.rename π.map) = failsOpen t := by
  rw [failsOpen, tyidKind_rename, failsOpen]

/-- The errors and their nodes. -/
def places (ds : List Diag) : List (Nat × DiagCode) := ds.map Diag.place

@[simp] theorem places_nil : places [] = [] := rfl

@[simp] theorem places_append (ds es : List Diag) : places (ds ++ es) = places ds ++ places es :=
  List.map_append

theorem node_rename (e : Expr) : (e.rename cx π.map).node = e.node := by
  cases e
  rfl

theorem checkGot_rename (e : Expr) {expected got : Ty} (place : Text) {ds ds' : List Diag}
    (hds : places ds' = places ds) (hg : FitsUnder π got) (he : FitsUnder π expected) :
    places (checkGot (cx.rename π.map) (e.rename cx π.map) (expected.rename π.map) place ds'
        (got.rename π.map)) =
      places (checkGot cx e expected place ds got) := by
  have hname := sameName_display he (n := 32) (by decide) (by decide)
  have hfail : places (ds' ++ [mismatch 128 (e.rename cx π.map).node place (expected.rename π.map)
      (got.rename π.map)]) = places (ds ++ [mismatch 128 e.node place expected got]) := by
    rw [places_append, places_append, hds, node_rename]
    rfl
  rw [checkGot, checkGot]
  simp only [Ty.rename_eq_unknown, Ty.rename_inj π.injective, tyidKind_rename,
    tyidUsableAs_rename π.injective, subtypeCheck_rename hg he, primSilentlyCompatible_rename hg he,
    hname.isWidthIntName, hname.beq (w := "int".toList) (by decide),
    hname.beq (w := "char".toList) (by decide), hname.beq (w := "i64".toList) (by decide),
    hname.beq (w := "opaque".toList) (by decide)]
  split_ifs <;> assumption

/-- What `synth` gives for an expression under the two spellings. -/
structure SeenRenamed (cx : Ctx) (π : Renaming) (s s' : Seen) : Prop where
  expr : s'.expr = s.expr.rename cx π.map
  diags : places s'.diags = places s.diags
  type : s'.type = s.type.rename π.map
  fits : FitsUnder π s.type

theorem checkSeen_rename {s s' : Seen} (hs : SeenRenamed cx π s s') {expected : Ty}
    (he : FitsUnder π expected) (place : Text) :
    places (checkSeen (cx.rename π.map) s' (expected.rename π.map) place) =
      places (checkSeen cx s expected place) := by
  rw [checkSeen, failsOpen_rename, hs.expr, checkLiteralFits_rename _ he, hs.type, checkSeen]
  split
  · rfl
  · exact checkGot_rename _ place hs.diags hs.fits he

/-! ## Names of functions and of types -/

theorem findCallee_ctx (n : QName) :
    findCallee (cx.rename π.map) n = (findCallee cx n).map (Decl.rename cx π.map) := by
  rw [findCallee, Ctx.rename, List.find?_map, findCallee]
  rfl

theorem findCallee_rename (hcap : π.NoCapture cx) (n : QName) :
    findCallee (cx.rename π.map) (renameRef cx π.map n) =
      (findCallee cx n).map (Decl.rename cx π.map) := by
  rw [findCallee_ctx, renameRef]
  cases hn : findCallee cx n with
  | some d => simp [hn]
  | none => simp [hcap n hn]

theorem tyidOfCallee_rename (d : Decl) :
    tyidOfCallee (d.rename cx π.map) = (tyidOfCallee d).rename π.map := by
  have hparams : ∀ ps : List Param, (ps.map (Param.rename π.map)).map Param.type =
      (ps.map Param.type).map (Ty.rename π.map) := by
    intro ps
    rw [List.map_map, List.map_map]
    rfl
  have hcut : ∀ (k : Nat) (ts : List Ty), (ts.map (Ty.rename π.map)).take k =
      (ts.take k).map (Ty.rename π.map) := fun k ts => List.map_take.symm
  by_cases hproc : d.kind = .proc
  · have hproc' : (d.rename cx π.map).kind = .proc := hproc
    rw [tyidOfCallee, tyidOfCallee, if_pos hproc, if_pos hproc', Ty.rename, Fields.ofTypes_rename,
      Fields.ofTypes_rename, ← hcut, ← hcut, ← hparams, ← hparams]
    rfl
  · have hproc' : ¬ (d.rename cx π.map).kind = .proc := hproc
    rw [tyidOfCallee, tyidOfCallee, if_neg hproc, if_neg hproc', Ty.rename, Fields.ofTypes_rename,
      Fields.ofTypes_rename, ← hcut, ← hcut, ← hparams]
    rfl

theorem canonicalName_rename (n : QName) :
    canonicalName (n.rename π.map) = (canonicalName n).rename π.map := by
  have h := sameName_text π.injective n
  unfold canonicalName
  simp only [h.word (w := "Int".toList) (by decide), h.word (w := "Float".toList) (by decide),
    h.word (w := "Char".toList) (by decide), h.word (w := "Str".toList) (by decide),
    h.word (w := "Void".toList) (by decide), h.word (w := "int".toList) (by decide)]
  split_ifs
  · exact (π.fixes_word (by decide)).symm
  · exact (π.fixes_word (by decide)).symm
  · exact (π.fixes_word (by decide)).symm
  · exact (π.fixes_word (by decide)).symm
  · exact (π.fixes_word (by decide)).symm
  · exact (π.fixes_word (by decide)).symm
  · rfl

theorem tyidOfName_rename {fuel : Nat} (n : QName) :
    tyidOfName (cx.rename π.map) fuel (n.rename π.map) =
      (tyidOfName cx fuel n).rename π.map := by
  induction fuel generalizing n with
  | zero => rfl
  | succ fuel ih =>
    have hcallable : (cx.rename π.map).callableAliases.find?
        (fun a => a.1.text == (n.rename π.map).text) =
        (cx.callableAliases.find? fun a => a.1.text == n.text).map
          fun a => (π.map a.1, a.2.rename π.map) := by
      rw [Ctx.rename, List.find?_map]
      congr 2
      funext a
      exact (sameName_text π.injective n).beq_text (.of a.1)
    rw [tyidOfName, hcallable, tyidOfName]
    cases cx.callableAliases.find? fun a => a.1.text == n.text with
    | some a => rfl
    | none =>
      dsimp only [Option.map_none]
      rw [canonicalName_rename]
      generalize canonicalName n = m
      have hkey := sameKey_text π.injective m
      have hr : (resolveTypeAlias (cx.rename π.map) (m.rename π.map).text).getD (m.rename π.map) =
          ((resolveTypeAlias cx m.text).getD m).rename π.map := by
        rw [resolveTypeAlias_rename hkey]
        cases resolveTypeAlias cx m.text <;> rfl
      rw [hr]
      generalize (resolveTypeAlias cx m.text).getD m = r
      have hword := sameName_text π.injective r
      have hsame : (r.rename π.map).text = (m.rename π.map).text ↔ r.text = m.text := by
        rw [QName.text_inj, QName.text_inj, QName.rename_inj π.injective]
      have hsums : ((cx.rename π.map).sums.any fun s => s.text == (r.rename π.map).text) =
          cx.sums.any fun s => s.text == r.text := by
        rw [Ctx.rename, List.any_map]
        congr 1
        funext s
        exact hword.beq_text (.of s)
      have hdistinct := @isDistinct_rename π cx _ _ hkey
      rw [isDistinct, isDistinct] at hdistinct
      rw [hdistinct, ih]
      simp only [hsame, hsums, hword.word (w := "float".toList) (by decide),
        hword.word (w := "char".toList) (by decide), hword.word (w := "str".toList) (by decide),
        hword.word (w := "bool".toList) (by decide), hword.word (w := "void".toList) (by decide),
        hword.word (w := "opaque".toList) (by decide)]
      split_ifs <;> rfl

/-! ## Expressions -/

/-- What `synth` returns under the two spellings. -/
def ResultRenamed (π : Renaming) (r r' : List Diag × Ty) : Prop :=
  places r'.1 = places r.1 ∧ r'.2 = r.2.rename π.map

theorem fitsUnder_unknown : FitsUnder π .unknown := by
  have h : Ty.unknown.Fits := .inl (by decide)
  exact ⟨h, h⟩

/-- Of a child that may be absent. -/
theorem seenRenamed_getD {o o' : Option Seen} (h : Option.Rel (SeenRenamed cx π) o o') :
    (o'.map Seen.type).getD .unknown = ((o.map Seen.type).getD .unknown).rename π.map ∧
      FitsUnder π ((o.map Seen.type).getD .unknown) ∧
      places ((o'.map Seen.diags).getD []) = places ((o.map Seen.diags).getD []) ∧
      (o'.map fun s => s.expr.node).getD 0 = (o.map fun s => s.expr.node).getD 0 := by
  cases h with
  | none => exact ⟨rfl, fitsUnder_unknown, rfl, rfl⟩
  | some hs =>
    refine ⟨hs.type, hs.fits, hs.diags, ?_⟩
    rw [Option.map_some, Option.getD_some, hs.expr, node_rename]
    rfl

theorem getElem?_rel {α β : Type} {R : α → β → Prop} {l : List α} {l' : List β}
    (h : List.Forall₂ R l l') (i : Nat) : Option.Rel R l[i]? l'[i]? := by
  induction h generalizing i with
  | nil => exact .none
  | cons hd _ ih =>
    cases i with
    | zero => exact .some hd
    | succ i => exact ih i

theorem bind_findCallee (hcap : π.NoCapture cx) (o : Option QName) :
    (o.map (renameRef cx π.map)).bind (findCallee (cx.rename π.map)) =
      (o.bind (findCallee cx)).map (Decl.rename cx π.map) := by
  cases o with
  | none => rfl
  | some n => exact findCallee_rename hcap n

theorem param_fits (hfits : ∀ t ∈ cx.types, FitsUnder π t) {n : QName} {d : Decl}
    (hd : findCallee cx n = some d) : ∀ p ∈ d.params, FitsUnder π p.type := by
  intro p hp
  refine hfits _ (List.mem_flatMap.mpr ⟨d, List.mem_of_find?_eq_some hd, ?_⟩)
  simp only [Decl.types, List.mem_append]
  exact .inl (.inl (.inl (List.mem_map_of_mem hp)))

theorem checkArgs_rename {ss ss' : List Seen} (hs : List.Forall₂ (SeenRenamed cx π) ss ss')
    (name : QName) (i : Nat) {ps : List Param} (hp : ∀ p ∈ ps, FitsUnder π p.type) :
    places (checkArgs (cx.rename π.map) name i ss' (ps.map (Param.rename π.map))) =
      places (checkArgs cx name i ss ps) := by
  induction hs generalizing i ps with
  | nil => cases ps <;> rfl
  | cons hd _ ih =>
    cases ps with
    | nil => rfl
    | cons p ps =>
      rw [List.map_cons, checkArgs, checkArgs, places_append, places_append,
        ih (i + 1) fun q hq => hp q (List.mem_cons_of_mem p hq)]
      congr 1
      exact checkSeen_rename hd (hp p List.mem_cons_self) _

theorem synthCall_rename (hcap : π.NoCapture cx) (hfits : ∀ t ∈ cx.types, FitsUnder π t)
    (info : ExprInfo) {args args' : List Seen}
    (hargs : List.Forall₂ (SeenRenamed cx π) args args') :
    ResultRenamed π (synthCall cx info args)
      (synthCall (cx.rename π.map) (info.rename cx π.map) args') := by
  have hlen : args'.length = args.length := hargs.length_eq.symm
  unfold synthCall
  dsimp only [ExprInfo.rename]
  cases hcallee : info.callee with
  | none => exact ⟨rfl, rfl⟩
  | some name =>
    rw [Option.map_some]
    dsimp only
    rw [findCallee_rename hcap]
    cases hfind : findCallee cx name with
    | none =>
      have href : renameRef cx π.map name = name.rename π.map := by simp [renameRef, hfind]
      have hname := sameName_text π.injective name
      have halen : (cx.rename π.map).aliases.length = cx.aliases.length := List.length_map _
      rw [Option.map_none]
      dsimp only
      rw [href, hname.isIntish, hname.beq (w := "float".toList) (by decide),
        hname.beq (w := "str".toList) (by decide), hname.beq (w := "void".toList) (by decide),
        isTypeAlias_rename (sameKey_text π.injective name), halen, tyidOfName_rename]
      refine ⟨rfl, ?_⟩
      dsimp only
      split <;> rfl
    | some cr =>
      have href : renameRef cx π.map name = name := by simp [renameRef, hfind]
      have hparams : (Decl.rename cx π.map cr).params.length = cr.params.length :=
        List.length_map _
      have hreturns : (if (Decl.rename cx π.map cr).kind = .func
          then (Decl.rename cx π.map cr).returnTypes else []) =
          (if cr.kind = .func then cr.returnTypes else []).map (Ty.rename π.map) := by
        by_cases hfunc : cr.kind = .func
        · rw [if_pos hfunc, if_pos (show (Decl.rename cx π.map cr).kind = .func from hfunc)]
          rfl
        · rw [if_neg hfunc, if_neg (show ¬ (Decl.rename cx π.map cr).kind = .func from hfunc)]
          rfl
      have hhead : ∀ (ts : List Ty) (t : Ty),
          (ts.map (Ty.rename π.map)).head?.getD (t.rename π.map) =
            (ts.head?.getD t).rename π.map := by
        intro ts t
        cases ts <;> rfl
      have hvariadic : (Decl.rename cx π.map cr).isVariadic = cr.isVariadic := rfl
      have hproc : ((Decl.rename cx π.map cr).isExtern = true ∧
          (Decl.rename cx π.map cr).kind = .proc) = (cr.isExtern = true ∧ cr.kind = .proc) := rfl
      have hslots : ((Decl.rename cx π.map cr).outParams.map fun p => (p.name, p.type)) =
          (cr.outParams.map fun p => (p.name, p.type)).map fun x => (x.1, x.2.rename π.map) := by
        rw [List.map_map]
        exact List.map_map
      have hdiags := checkArgs_rename hargs name 0 (param_fits hfits hfind)
      rw [Option.map_some]
      dsimp only
      rw [href, hreturns, hparams, hlen, hvariadic, hslots, ← Fields.ofList_rename]
      simp only [hproc]
      generalize (if cr.isVariadic = true then decide (args.length < cr.params.length)
        else decide (cr.params.length ≠ args.length)) = wrong
      cases wrong with
      | true => exact ⟨rfl, hhead _ .unknown⟩
      | false =>
        rw [if_neg Bool.false_ne_true, if_neg Bool.false_ne_true]
        split
        · exact ⟨hdiags, rfl⟩
        · exact ⟨hdiags, hhead _ (.prim .void)⟩

theorem synthBinary_rename (op : Operator) {l l' r r' : Option Seen}
    (hl : Option.Rel (SeenRenamed cx π) l l') (hr : Option.Rel (SeenRenamed cx π) r r') :
    ResultRenamed π (synthBinary cx op l r) (synthBinary (cx.rename π.map) op l' r') := by
  obtain ⟨hltype, hlfits, hldiags, -⟩ := seenRenamed_getD hl
  obtain ⟨hrtype, hrfits, hrdiags, hrnode⟩ := seenRenamed_getD hr
  unfold synthBinary
  dsimp only
  rw [hltype, hrtype, hrnode]
  generalize (l.map Seen.type).getD .unknown = lt at hlfits ⊢
  generalize (r.map Seen.type).getD .unknown = rt at hrfits ⊢
  have hldistinct := @isDistinct_rename π cx _ _ (sameKey_display hlfits)
  have hrdistinct := @isDistinct_rename π cx _ _ (sameKey_display hrfits)
  simp only [ne_eq, Ty.rename_eq_unknown, tyidKind_rename, Ty.rename_inj π.injective,
    primBinopCompatible_rename hlfits hrfits, hldistinct, hrdistinct, Ty.rename_eq_prim]
  constructor
  · rw [places_append, places_append, places_append, places_append, hldiags, hrdiags]
    congr 1
    split <;> rfl
  · dsimp only
    split_ifs <;> rfl

theorem synthFmap_rename (hcap : π.NoCapture cx) {l l' r r' : Option Seen}
    (hl : Option.Rel (SeenRenamed cx π) l l') (hr : Option.Rel (SeenRenamed cx π) r r') :
    ResultRenamed π (synthFmap cx l r) (synthFmap (cx.rename π.map) l' r') := by
  obtain ⟨hltype, hlfits, hldiags, -⟩ := seenRenamed_getD hl
  have href : (r'.bind fun s => s.expr.info.refName) =
      (r.bind fun s => s.expr.info.refName).map (renameRef cx π.map) := by
    cases hr with
    | none => rfl
    | some hs =>
      rw [Option.bind_some, Option.bind_some, hs.expr]
      generalize Seen.expr _ = e
      cases e
      rfl
  unfold synthFmap
  dsimp only
  rw [hltype, href, bind_findCallee hcap]
  generalize (l.map Seen.type).getD .unknown = lt
  refine ⟨hldiags, ?_⟩
  dsimp only
  rw [tyidKind_rename]
  split
  · rfl
  · cases (r.bind fun s => s.expr.info.refName).bind (findCallee cx) with
    | none => rfl
    | some fd =>
      have hreturns : (Decl.rename cx π.map fd).returnTypes =
          fd.returnTypes.map (Ty.rename π.map) := rfl
      rw [Option.map_some]
      dsimp only
      rw [hreturns, ← List.map_take, ← Fields.ofTypes_rename]
      simp only [List.map_eq_nil_iff]
      split <;> rfl

theorem synthNode_rename (hcap : π.NoCapture cx) (hfits : ∀ t ∈ cx.types, FitsUnder π t)
    (kind : ExprKind) (info : ExprInfo) {ss ss' : List Seen}
    (hs : List.Forall₂ (SeenRenamed cx π) ss ss') :
    ResultRenamed π (synthNode cx kind info ss)
      (synthNode (cx.rename π.map) kind (info.rename cx π.map) ss') := by
  have hfirst : ResultRenamed π (synthNode cx .paren info ss)
      (synthNode (cx.rename π.map) .paren (info.rename cx π.map) ss') := by
    cases hs with
    | nil => exact ⟨rfl, rfl⟩
    | cons hd _ => exact ⟨hd.diags, hd.type⟩
  cases kind with
  | paren => exact hfirst
  | unary => exact hfirst
  | literal =>
    unfold synthNode
    dsimp only [ExprInfo.rename]
    cases info.lexeme with
    | none => exact ⟨rfl, rfl⟩
    | some lex =>
      refine ⟨rfl, ?_⟩
      dsimp only
      split_ifs <;> rfl
  | string => exact ⟨rfl, rfl⟩
  | call => exact synthCall_rename hcap hfits info hs
  | binary =>
    have hop : (info.rename cx π.map).op = info.op := rfl
    rw [synthNode, synthNode, hop]
    split
    · exact synthFmap_rename hcap (getElem?_rel hs 0) (getElem?_rel hs 1)
    · exact synthBinary_rename info.op (getElem?_rel hs 0) (getElem?_rel hs 1)
  | index => exact ⟨rfl, rfl⟩
  | slice => exact ⟨rfl, rfl⟩
  | field => exact ⟨rfl, rfl⟩
  | name =>
    have href : ((info.rename cx π.map).refName.orElse fun _ => (info.rename cx π.map).leading) =
        (info.refName.orElse fun _ => info.leading).map (renameRef cx π.map) := by
      dsimp only [ExprInfo.rename]
      cases info.refName <;> rfl
    unfold synthNode
    dsimp only
    rw [href, bind_findCallee hcap]
    cases (info.refName.orElse fun _ => info.leading).bind (findCallee cx) with
    | none => exact ⟨rfl, rfl⟩
    | some cr => exact ⟨rfl, tyidOfCallee_rename cr⟩
  | arrayLit =>
    have hlen := hs.length_eq
    cases hs with
    | nil => exact ⟨rfl, rfl⟩
    | @cons s s' rest rest' hd htl =>
      refine ⟨hd.diags, ?_⟩
      dsimp only [synthNode, List.head?_cons]
      rw [hd.type, ← hlen]
      simp only [Ty.rename_eq_unknown]
      split <;> rfl
  | alloc => exact ⟨rfl, rfl⟩
  | entity => exact ⟨rfl, rfl⟩
  | tupleLit => exact ⟨rfl, rfl⟩

mutual

theorem synth_rename (hcap : π.NoCapture cx) (hfits : ∀ t ∈ cx.types, FitsUnder π t) :
    (e : Expr) → (∀ t ∈ e.types cx, FitsUnder π t) →
    ResultRenamed π (synth cx e) (synth (cx.rename π.map) (e.rename cx π.map))
  | .mk kind info children, h => by
    have hchildren := synthAll_rename hcap hfits children fun t ht => by
      rw [Expr.types] at h
      exact h t (List.mem_cons_of_mem _ ht)
    rw [synth, Expr.rename, synth]
    exact synthNode_rename hcap hfits kind info hchildren

theorem synthAll_rename (hcap : π.NoCapture cx) (hfits : ∀ t ∈ cx.types, FitsUnder π t) :
    (es : List Expr) → (∀ t ∈ Expr.typesAll cx es, FitsUnder π t) →
    List.Forall₂ (SeenRenamed cx π) (synthAll cx es)
      (synthAll (cx.rename π.map) (Expr.renameAll cx π.map es))
  | [], _ => .nil
  | e :: es, h => by
    rw [Expr.typesAll] at h
    have he : ∀ t ∈ e.types cx, FitsUnder π t := fun t ht => h t (List.mem_append_left _ ht)
    have htop : FitsUnder π (synth cx e).2 := by
      cases e
      rw [Expr.types] at he
      exact he _ List.mem_cons_self
    obtain ⟨hdiags, htype⟩ := synth_rename hcap hfits e he
    have hrest := synthAll_rename hcap hfits es fun t ht => h t (List.mem_append_right _ ht)
    rw [synthAll, Expr.renameAll, synthAll]
    exact .cons ⟨rfl, hdiags, htype, htop⟩ hrest

end

/-! ## The walk -/

/-- All types of an expression fit. -/
def ExprFits (cx : Ctx) (π : Renaming) (e : Expr) : Prop := ∀ t ∈ e.types cx, FitsUnder π t

theorem ExprFits.type {e : Expr} (h : ExprFits cx π e) : FitsUnder π (synth cx e).2 := by
  cases e
  rw [ExprFits, Expr.types] at h
  exact h _ List.mem_cons_self

theorem ExprFits.all {es : List Expr} (h : ∀ t ∈ Expr.typesAll cx es, FitsUnder π t) :
    ∀ e ∈ es, ExprFits cx π e := by
  induction es with
  | nil => exact fun _ he => absurd he List.not_mem_nil
  | cons e es ih =>
    rw [Expr.typesAll] at h
    intro e' he'
    rcases List.mem_cons.mp he' with rfl | he'
    · exact fun t ht => h t (List.mem_append_left _ ht)
    · exact ih (fun t ht => h t (List.mem_append_right _ ht)) e' he'

theorem ExprFits.children {kind : ExprKind} {info : ExprInfo} {children : List Expr}
    (h : ExprFits cx π (.mk kind info children)) : ∀ e ∈ children, ExprFits cx π e := by
  rw [ExprFits, Expr.types] at h
  exact ExprFits.all fun t ht => h t (List.mem_cons_of_mem _ ht)

theorem Expr.renameAll_eq (es : List Expr) :
    Expr.renameAll cx π.map es = es.map (Expr.rename cx π.map) := by
  induction es with
  | nil => rfl
  | cons e es ih => rw [Expr.renameAll, ih, List.map_cons]

theorem kind_rename (e : Expr) : (e.rename cx π.map).kind = e.kind := by
  cases e
  rfl

theorem places_flatMap {α : Type} (l : List α) (f : α → List Diag) :
    places (l.flatMap f) = l.flatMap fun x => places (f x) := List.map_flatMap

/-- What the walk gives for an element under the two spellings. -/
structure VisitRenamed (cx : Ctx) (π : Renaming) (x x' : Expr × List Diag) : Prop where
  expr : x'.1 = x.1.rename cx π.map
  diags : places x'.2 = places x.2
  fits : ExprFits cx π x.1

theorem check_rename (hcap : π.NoCapture cx) (hfits : ∀ t ∈ cx.types, FitsUnder π t)
    {e : Expr} (he : ExprFits cx π e) {expected : Ty} (hexp : FitsUnder π expected) (place : Text) :
    places (check (cx.rename π.map) (e.rename cx π.map) (expected.rename π.map) place) =
      places (check cx e expected place) := by
  obtain ⟨hdiags, htype⟩ := synth_rename hcap hfits e he
  exact checkSeen_rename ⟨rfl, hdiags, htype, he.type⟩ hexp place

theorem homogeneous_rename (hcap : π.NoCapture cx) (hfits : ∀ t ∈ cx.types, FitsUnder π t)
    {elem : Option Ty} (helem : ∀ t ∈ elem, FitsUnder π t) {xs xs' : List (Expr × List Diag)}
    (hxs : List.Forall₂ (VisitRenamed cx π) xs xs') :
    places (homogeneous (cx.rename π.map) (elem.map (Ty.rename π.map)) xs') =
      places (homogeneous cx elem xs) := by
  induction hxs generalizing elem with
  | nil => rfl
  | @cons x x' rest rest' hd _ ih =>
    obtain ⟨el, visited⟩ := x
    obtain ⟨el', visited'⟩ := x'
    obtain ⟨rfl, hvisited, hel⟩ := hd
    obtain ⟨hdiags, htype⟩ := synth_rename hcap hfits el hel
    have htop := hel.type
    have hall : places (visited' ++ (synth (cx.rename π.map) (el.rename cx π.map)).1) =
        places (visited ++ (synth cx el).1) := by
      rw [places_append, places_append, hvisited, hdiags]
    unfold homogeneous
    dsimp only
    rw [htype]
    simp only [Ty.rename_eq_unknown]
    generalize visited ++ (synth cx el).1 = ds at hall ⊢
    generalize visited' ++ _ = ds' at hall ⊢
    split
    · rw [places_append, places_append, hall, ih helem]
    · cases elem with
      | none =>
        have hsome : ∀ t ∈ some (synth cx el).2, FitsUnder π t := fun t ht => Option.some.inj ht ▸ htop
        have hnext := ih hsome
        rw [Option.map_some] at hnext
        rw [Option.map_none]
        dsimp only
        rw [places_append, places_append, hall, hnext]
      | some t =>
        have hnext := ih helem
        have hmatch := @elementMatches_rename π cx _ _ htop (helem t rfl)
        rw [Option.map_some] at hnext ⊢
        dsimp only
        rw [places_append, places_append, hmatch, hnext, node_rename]
        congr 1
        split
        · exact hall
        · rw [places_append, places_append, hall]
          rfl

mutual

theorem visitExpr_rename (hcap : π.NoCapture cx) (hfits : ∀ t ∈ cx.types, FitsUnder π t) :
    (e : Expr) → ExprFits cx π e →
    places (visitExpr (cx.rename π.map) (e.rename cx π.map)) = places (visitExpr cx e)
  | .mk kind info children, h => by
    have hchildren := visitAll_rename hcap hfits children h.children
    have hsynth := (synth_rename hcap hfits _ h).1
    have hflat : ∀ {xs xs' : List (Expr × List Diag)}, List.Forall₂ (VisitRenamed cx π) xs xs' →
        places (xs'.flatMap (·.2)) = places (xs.flatMap (·.2)) := by
      intro xs xs' hxs
      induction hxs with
      | nil => rfl
      | cons hd _ ih =>
        rw [List.flatMap_cons, List.flatMap_cons, places_append, places_append, hd.diags, ih]
    have hhead : places (((visitAll (cx.rename π.map)
        (Expr.renameAll cx π.map children)).head?.map (·.2)).getD []) =
        places (((visitAll cx children).head?.map (·.2)).getD []) := by
      generalize visitAll cx children = xs at hchildren ⊢
      generalize visitAll _ _ = xs' at hchildren ⊢
      cases hchildren with
      | nil => rfl
      | cons hd _ => exact hd.diags
    rw [Expr.rename] at hsynth ⊢
    unfold visitExpr
    rw [places_append, places_append, hsynth]
    congr 1
    cases kind with
    | paren => exact hhead
    | unary => exact hhead
    | binary => exact hflat (List.forall₂_take 2 hchildren)
    | index => exact hflat hchildren
    | slice => exact hflat hchildren
    | arrayLit =>
      have hnone : ∀ t ∈ (none : Option Ty), FitsUnder π t := fun _ ht => nomatch ht
      exact homogeneous_rename hcap hfits hnone hchildren
    | _ => rfl

theorem visitAll_rename (hcap : π.NoCapture cx) (hfits : ∀ t ∈ cx.types, FitsUnder π t) :
    (es : List Expr) → (∀ e ∈ es, ExprFits cx π e) →
    List.Forall₂ (VisitRenamed cx π) (visitAll cx es)
      (visitAll (cx.rename π.map) (Expr.renameAll cx π.map es))
  | [], _ => .nil
  | e :: es, h => by
    have he := h e List.mem_cons_self
    have hvisit := visitExpr_rename hcap hfits e he
    have hrest := visitAll_rename hcap hfits es fun e' he' => h e' (List.mem_cons_of_mem e he')
    rw [visitAll, Expr.renameAll, visitAll]
    exact .cons ⟨rfl, hvisit, he⟩ hrest

end

theorem checkAssign_rename (hcap : π.NoCapture cx) (hfits : ∀ t ∈ cx.types, FitsUnder π t)
    {target value : Expr} (ht : ExprFits cx π target) (hv : ExprFits cx π value) :
    places (checkAssign (cx.rename π.map) (target.rename cx π.map) (value.rename cx π.map)) =
      places (checkAssign cx target value) := by
  obtain ⟨hdiags, htype⟩ := synth_rename hcap hfits target ht
  have htop := ht.type
  unfold checkAssign
  dsimp only
  rw [places_append, places_append, hdiags, htype, kind_rename, kind_rename, node_rename,
    targetIsOpaqueNominal_rename htop]
  congr 1
  split
  · rfl
  · split
    · cases value with
      | mk kind info children =>
        rw [Expr.rename, Expr.renameAll_eq]
        dsimp only
        rw [places_flatMap, places_flatMap, List.flatMap_map]
        refine List.flatMap_congr fun el hel => ?_
        exact check_rename hcap hfits (hv.children el hel) htop _
    · exact check_rename hcap hfits hv htop _

theorem checkReturns_rename (hcap : π.NoCapture cx) (hfits : ∀ t ∈ cx.types, FitsUnder π t)
    {es : List Expr} (hes : ∀ e ∈ es, ExprFits cx π e) {ts : List Ty}
    (hts : ∀ t ∈ ts, FitsUnder π t) :
    places (checkReturns (cx.rename π.map) (es.map (Expr.rename cx π.map))
        (ts.map (Ty.rename π.map))) =
      places (checkReturns cx es ts) := by
  induction es generalizing ts with
  | nil => rfl
  | cons e es ih =>
    cases ts with
    | nil => rfl
    | cons t ts =>
      rw [List.map_cons, List.map_cons, checkReturns, checkReturns, places_append, places_append,
        check_rename hcap hfits (hes e List.mem_cons_self) (hts t List.mem_cons_self),
        ih (fun e' he' => hes e' (List.mem_cons_of_mem e he'))
          fun t' ht' => hts t' (List.mem_cons_of_mem t ht')]

theorem Stmt.renameAll_eq (ss : List Stmt) :
    Stmt.renameAll cx π.map ss = ss.map (Stmt.rename cx π.map) := by
  induction ss with
  | nil => rfl
  | cons s ss ih => rw [Stmt.renameAll, ih, List.map_cons]

mutual

theorem visitStmt_rename (hcap : π.NoCapture cx) (hfits : ∀ t ∈ cx.types, FitsUnder π t)
    {fn : Option Decl} (hfn : ∀ d ∈ fn, ∀ t ∈ d.returnTypes, FitsUnder π t) (loopDepth : Nat) :
    (s : Stmt) → (∀ t ∈ s.types cx, FitsUnder π t) →
    places (visitStmt (cx.rename π.map) (fn.map (Decl.rename cx π.map)) loopDepth
        (s.rename cx π.map)) =
      places (visitStmt cx fn loopDepth s)
  | .mk kind node annotation exprs stmts, h => by
    rw [Stmt.types] at h
    have hnoted : ∀ t ∈ annotation, FitsUnder π t := fun t ht =>
      h t (List.mem_append_left _ (List.mem_append_left _ (Option.mem_toList.mpr ht)))
    have hexprs : ∀ e ∈ exprs, ExprFits cx π e := fun e he t ht =>
      h t (List.mem_append_left _ (List.mem_append_right _ (List.mem_flatMap.mpr ⟨e, he, ht⟩)))
    have hbody := fun depth => visitStmts_rename hcap hfits hfn depth stmts
      fun t ht => h t (List.mem_append_right _ ht)
    have hvisit : ∀ o : Option Expr, (∀ e ∈ o, e ∈ exprs) →
        places (((o.map (Expr.rename cx π.map)).map (visitExpr (cx.rename π.map))).getD []) =
          places ((o.map (visitExpr cx)).getD []) := by
      intro o ho
      cases o with
      | none => rfl
      | some e => exact visitExpr_rename hcap hfits e (hexprs e (ho e rfl))
    have hall : places ((exprs.map (Expr.rename cx π.map)).flatMap (visitExpr (cx.rename π.map))) =
        places (exprs.flatMap (visitExpr cx)) := by
      rw [places_flatMap, places_flatMap, List.flatMap_map]
      exact List.flatMap_congr fun e he => visitExpr_rename hcap hfits e (hexprs e he)
    have hcall : places (match (exprs.map (Expr.rename cx π.map)).find? (·.kind == .call) with
          | some v => visitExpr (cx.rename π.map) v
          | none => []) =
        places (match exprs.find? (·.kind == .call) with
          | some v => visitExpr cx v
          | none => []) := by
      have hkind : ((fun e : Expr => e.kind == .call) ∘ Expr.rename cx π.map) =
          fun e => e.kind == .call := funext fun e => by rw [Function.comp_apply, kind_rename]
      rw [List.find?_map, hkind]
      cases hfind : exprs.find? fun e => e.kind == .call with
      | none => rfl
      | some v => exact visitExpr_rename hcap hfits v (hexprs v (List.mem_of_find?_eq_some hfind))
    have hhead := hvisit exprs.head? fun e he => List.mem_of_mem_head? he
    have hget : ∀ {i : Nat} {e : Expr}, exprs[i]? = some e → ExprFits cx π e := fun hi =>
      hexprs _ (List.mem_of_getElem? hi)
    rw [Stmt.rename]
    unfold visitStmt
    cases kind with
    | bind =>
      dsimp only
      rw [List.getElem?_map]
      cases hvalue : exprs[1]? with
      | none => rfl
      | some value =>
        rw [Option.map_some]
        dsimp only
        rw [places_append, places_append, visitExpr_rename hcap hfits value (hget hvalue)]
        congr 1
        cases annotation with
        | none => rfl
        | some t => exact check_rename hcap hfits (hget hvalue) (hnoted t rfl) _
    | assign =>
      dsimp only
      rw [List.getElem?_map, List.getElem?_map, places_append, places_append, places_append,
        places_append, hvisit exprs[0]? fun e he => List.mem_of_getElem? he,
        hvisit exprs[1]? fun e he => List.mem_of_getElem? he]
      congr 1
      cases htarget : exprs[0]? with
      | none => rfl
      | some target =>
        cases hvalue : exprs[1]? with
        | none => rfl
        | some value => exact checkAssign_rename hcap hfits (hget htarget) (hget hvalue)
    | multiBind => exact hcall
    | procCall => exact hcall
    | expr =>
      dsimp only
      rw [List.head?_map]
      exact hhead
    | ret =>
      dsimp only
      rw [places_append, places_append, hall]
      congr 1
      cases fn with
      | none => rfl
      | some fn =>
        have hreturns : (fn.rename cx π.map).returnTypes = fn.returnTypes.map (Ty.rename π.map) :=
          rfl
        rw [Option.map_some]
        dsimp only
        rw [places_append, places_append, hreturns, List.length_map, List.length_map,
          checkReturns_rename hcap hfits hexprs (hfn fn rfl)]
        congr 1
    | ifThen =>
      dsimp only
      rw [places_append, places_append, List.head?_map, hhead, hbody]
    | forLoop =>
      dsimp only
      rw [places_append, places_append, hall, hbody]
    | eachField => exact hbody loopDepth
    | block => exact hbody loopDepth
    | matchOn => exact hbody loopDepth
    | breakLoop => rfl
    | continueLoop => rfl
    | elseClause => rfl
    | run => rfl

theorem visitStmts_rename (hcap : π.NoCapture cx) (hfits : ∀ t ∈ cx.types, FitsUnder π t)
    {fn : Option Decl} (hfn : ∀ d ∈ fn, ∀ t ∈ d.returnTypes, FitsUnder π t) (loopDepth : Nat) :
    (ss : List Stmt) → (∀ t ∈ Stmt.typesAll cx ss, FitsUnder π t) →
    places (visitStmts (cx.rename π.map) (fn.map (Decl.rename cx π.map)) loopDepth
        (Stmt.renameAll cx π.map ss)) =
      places (visitStmts cx fn loopDepth ss)
  | [], _ => rfl
  | s :: ss, h => by
    rw [Stmt.typesAll] at h
    have hs := visitStmt_rename hcap hfits hfn loopDepth s
      fun t ht => h t (List.mem_append_left _ ht)
    have hss := visitStmts_rename hcap hfits hfn loopDepth ss
      fun t ht => h t (List.mem_append_right _ ht)
    rw [Stmt.renameAll, visitStmts, visitStmts, places_append, places_append, hs, hss]

end

theorem checkDecl_rename (hcap : π.NoCapture cx) (hfits : ∀ t ∈ cx.types, FitsUnder π t) {d : Decl}
    (hd : ∀ t ∈ d.types cx, FitsUnder π t) :
    places (checkDecl (cx.rename π.map) (d.rename cx π.map)) = places (checkDecl cx d) := by
  simp only [Decl.types, List.mem_append] at hd
  have hreturns : ∀ t ∈ d.returnTypes, FitsUnder π t := fun t ht => hd t (.inl (.inl (.inr ht)))
  have hbody : ∀ t ∈ Stmt.typesAll cx d.body, FitsUnder π t := fun t ht => hd t (.inl (.inr ht))
  have hinit : ∀ e ∈ d.staticInit, ExprFits cx π e := by
    intro e he t ht
    refine hd t (.inr ?_)
    rw [Option.mem_def.mp he]
    exact ht
  have hkind : (d.rename cx π.map).kind = d.kind := rfl
  have hstmts : (d.rename cx π.map).body = Stmt.renameAll cx π.map d.body :=
    (Stmt.renameAll_eq d.body).symm
  have hstatic : (d.rename cx π.map).staticInit = d.staticInit.map (Expr.rename cx π.map) := rfl
  have hfn : (if d.kind = .func then some (d.rename cx π.map) else none) =
      (if d.kind = .func then some d else none).map (Decl.rename cx π.map) := by
    split <;> rfl
  have hfnfits : ∀ f ∈ (if d.kind = .func then some d else none), ∀ t ∈ f.returnTypes,
      FitsUnder π t := by
    intro f hf
    split at hf
    · exact Option.some.inj hf ▸ hreturns
    · cases hf
  rw [checkDecl, checkDecl, hkind, hstmts, hstatic, hfn, places_append, places_append]
  congr 1
  · split
    · exact visitStmts_rename hcap hfits hfnfits _ d.body hbody
    · rfl
  · split
    · cases hinitial : d.staticInit with
      | none => rfl
      | some e =>
        rw [Option.map_some]
        dsimp only
        rw [kind_rename]
        split
        · exact visitExpr_rename hcap hfits e (hinit e hinitial)
        · rfl
    · rfl

theorem duplicates_rename (before : List Decl) (d : Decl) :
    places (duplicates (before.map (Decl.rename cx π.map)) (d.rename cx π.map)) =
      places (duplicates before d) := by
  rw [duplicates, duplicates, List.any_map]
  split
  · next h => exact (if_pos (c := _) h).symm ▸ rfl
  · next h => exact (if_neg (c := _) h).symm ▸ rfl

theorem runDecls_rename (hcap : π.NoCapture cx) (hfits : ∀ t ∈ cx.types, FitsUnder π t)
    (before : List Decl) {ds : List Decl} (hds : ∀ d ∈ ds, ∀ t ∈ d.types cx, FitsUnder π t) :
    places (runDecls (cx.rename π.map) (before.map (Decl.rename cx π.map))
        (ds.map (Decl.rename cx π.map))) =
      places (runDecls cx before ds) := by
  induction ds generalizing before with
  | nil => rfl
  | cons d ds ih =>
    have hrest := ih (before ++ [d]) fun e he => hds e (List.mem_cons_of_mem d he)
    rw [List.map_append, List.map_singleton] at hrest
    rw [List.map_cons, runDecls, runDecls, places_append, places_append, places_append,
      places_append, duplicates_rename, hrest,
      checkDecl_rename hcap hfits (hds d List.mem_cons_self)]

end Rules

/-- `x : meters = 5` in the body of a system. -/
def metersProgram : Ctx where
  aliases := [⟨⟨"meters".toList, isName_meters⟩, .word "int".toList isName_int, false⟩]
  enums := []
  callableAliases := []
  sums := []
  decls := [
    { kind := .system, node := 1, name := none, isPolicy := false, isStdlib := false,
      isExtern := false, isVariadic := false, params := [], outParams := [], returnTypes := [],
      body := [.mk .bind 2 (some (.nominal (.word "meters".toList isName_meters) (.prim .int)))
        [.mk .name ⟨3, none, none, none, none, .unknown, .none⟩ [],
          .mk .literal ⟨4, some "5".toList, none, none, none, .unknown, .none⟩ []] []],
      staticInit := none }]

/-- `meters` and `i` change places. -/
def swapMeters (i : Ident) (hi : i ∉ builtins := by decide) : Renaming where
  map := Equiv.swap ⟨"meters".toList, isName_meters⟩ i
  injective := Equiv.injective _
  fixes j hj := by
    have hmeters : (⟨"meters".toList, isName_meters⟩ : Ident) ∉ builtins := by decide
    exact Equiv.swap_apply_of_ne_of_ne (fun h => hmeters (h ▸ hj)) fun h => hi (h ▸ hj)

theorem swapMeters_noCapture (i : Ident) (hi : i ∉ builtins) :
    (swapMeters i hi).NoCapture metersProgram := fun _ _ => rfl

end Arche.Semantic.TypeCheck
