import Arche.Lib.JoinedWords
import Mathlib.Data.List.Forall2

/-!
# Symbols of generated definitions

A definition of the program keeps its name (`cg_fnsym`). A copy of a proc for one archetype gets the
two names with an underscore between them (`monomorph_mangle`), a copy for bound callbacks the names
with two underscores before each (`cb_mangle`), both in a buffer of 256 bytes. The C names of
embedded shaders are the names of the maps with all else made an underscore (`gpu_c_ident`).

An underscore may stand in a name as well. `symbol_eq_iff` and `shaderSymbol_eq_iff` say which names
give the same symbol.
-/

namespace Arche.Codegen.Symbols

open Arche.Lib

abbrev Name := List Char

/-- A definition that is emitted: one of the program, or a copy of a proc for an archetype, or for
the procs and funcs bound to its callback parameters. -/
inductive Definition
  | plain (name : Name)
  | special (proc : Name) (arch : Option Name) (bound : List Name)
deriving DecidableEq, Repr

/-! ## The functions of code generation -/

/-- `cg_fnsym`, into a buffer of 512 bytes. -/
def cgFnsym (perUnit : Bool) (name : Name) : Name :=
  if name = "main".toList ∨ name = "main_user".toList then "main_user".toList
  else if perUnit then ("arche.".toList ++ name).take 511
  else name

/-- `monomorph_mangle`, into a buffer of 256 bytes. -/
def monomorphMangle (proc arch : Name) : Name := ("__".toList ++ proc ++ '_' :: arch).take 255

/-- One turn of `cb_mangle`: how long the text has become, and what of it is in the buffer. -/
def cbMangleStep (s : Nat × Name) (bound : Name) : Nat × Name :=
  if s.1 < 256 then
    (s.1 + 2 + bound.length, s.2 ++ ("__".toList ++ bound).take (255 - s.1))
  else s

def cbMangleLoop (proc : Name) (bound : List Name) : Nat × Name :=
  bound.foldl cbMangleStep (2 + proc.length, ("__".toList ++ proc).take 255)

/-- `cb_mangle`, into a buffer of 256 bytes. -/
def cbMangle (proc : Name) (bound : List Name) : Name := (cbMangleLoop proc bound).2

def Definition.symbol (perUnit : Bool) : Definition → Name
  | .plain name => cgFnsym perUnit name
  | .special proc (some arch) [] => monomorphMangle proc arch
  | .special proc _ bound => cbMangle proc bound

/-- A character that may stand in a C identifier. -/
def isIdentChar (c : Char) : Bool :=
  ('A' ≤ c && c ≤ 'Z') || ('a' ≤ c && c ≤ 'z') || ('0' ≤ c && c ≤ '9') || c == '_'

/-- `gpu_c_ident`, into a buffer of 256 bytes. -/
def gpuCIdent (name : Name) : Name :=
  (name.take 255).map fun c => if isIdentChar c then c else '_'

/-- The C variable with the code of a map that is embedded. -/
def shaderSymbol (name : Name) : Name := "spv_".toList ++ gpuCIdent name

/-! ## Names as words -/

/-- The words of the symbol of a copy, before it is cut: those of the names, in order, after two
empty ones, with an empty one before each callback. -/
def specialWords (proc : Name) : Option Name → List Name → List Name
  | some arch, [] => [] :: [] :: proc.splitOn '_' ++ arch.splitOn '_'
  | _, bound => [] :: [] :: proc.splitOn '_' ++ bound.flatMap fun b => [] :: b.splitOn '_'

/-- Two definitions that get one symbol. Two of the program do if they are `main` and `main_user`,
or agree as far as a unit's symbol has room; a copy and another definition do if their words are the
same, as far as there is room. -/
def Clash (perUnit : Bool) : Definition → Definition → Prop
  | .plain n, .plain m =>
    n = "main".toList ∧ m = "main_user".toList ∨ n = "main_user".toList ∧ m = "main".toList ∨
      perUnit = true ∧ n.take 505 = m.take 505 ∧
        ∀ k ∈ [n, m], k ≠ "main".toList ∧ k ≠ "main_user".toList
  | .plain n, .special p a bs | .special p a bs, .plain n =>
    perUnit = false ∧ n.splitOn '_' = cutWords 255 (specialWords p a bs)
  | .special p a bs, .special q b cs =>
    cutWords 255 (specialWords p a bs) = cutWords 255 (specialWords q b cs)

section Words

theorem foldl_cbMangleStep_of_full {s : Nat × Name} (hfull : ¬ s.1 < 256) (bound : List Name) :
    bound.foldl cbMangleStep s = s := by
  induction bound with
  | nil => rfl
  | cons b bound ih => rw [List.foldl_cons, cbMangleStep, if_neg hfull, ih]

theorem foldl_cbMangleStep (bound : List Name) (text : Name) :
    (bound.foldl cbMangleStep (text.length, text.take 255)).2 =
      (text ++ bound.flatMap fun b => "__".toList ++ b).take 255 := by
  induction bound generalizing text with
  | nil => simp
  | cons b bound ih =>
    by_cases hroom : text.length < 256
    · have hlen : text.length + 2 + b.length = (text ++ ("__".toList ++ b)).length := by
        rw [List.length_append, List.length_append, Nat.add_assoc]
        rfl
      rw [List.foldl_cons, cbMangleStep, if_pos hroom, hlen, ← List.take_append, ih,
        List.flatMap_cons, List.append_assoc]
    · rw [foldl_cbMangleStep_of_full hroom, List.take_append_of_le_length (by omega)]

/-- What is written to the buffer is what it has room for. -/
theorem cbMangle_eq (proc : Name) (bound : List Name) :
    cbMangle proc bound =
      ("__".toList ++ proc ++ bound.flatMap fun b => "__".toList ++ b).take 255 := by
  have hlen : 2 + proc.length = ("__".toList ++ proc).length := by
    rw [List.length_append]
    rfl
  rw [cbMangle, cbMangleLoop, hlen, foldl_cbMangleStep]

/-- The text of a copy, before it is cut. -/
def specialText (proc : Name) : Option Name → List Name → Name
  | some arch, [] => "__".toList ++ proc ++ '_' :: arch
  | _, bound => "__".toList ++ proc ++ bound.flatMap fun b => "__".toList ++ b

theorem symbol_special (perUnit : Bool) (p : Name) (a : Option Name) (bs : List Name) :
    (Definition.special p a bs).symbol perUnit = (specialText p a bs).take 255 := by
  cases a with
  | none => exact cbMangle_eq p bs
  | some a =>
    cases bs with
    | nil => rfl
    | cons b bs => exact cbMangle_eq p (b :: bs)

theorem splitOn_underscores (l : Name) :
    ("__".toList ++ l).splitOn '_' = [] :: [] :: l.splitOn '_' := by
  have h : ∀ r : Name, ('_' :: r).splitOn '_' = [] :: r.splitOn '_' := fun r =>
    List.splitOn_append_cons_self [] r
  exact (h ('_' :: l)).trans (congrArg _ (h l))

theorem splitOn_callbacks (l : Name) (bound : List Name) :
    (l ++ bound.flatMap fun b => "__".toList ++ b).splitOn '_' =
      l.splitOn '_' ++ bound.flatMap fun b => [] :: b.splitOn '_' := by
  induction bound generalizing l with
  | nil => simp
  | cons b bound ih =>
    have htext : l ++ (b :: bound).flatMap (fun b => "__".toList ++ b) =
        l ++ '_' :: '_' :: (b ++ bound.flatMap fun b => "__".toList ++ b) := by
      rw [List.flatMap_cons, List.append_assoc]
      rfl
    have hempty : ∀ r : Name, ('_' :: r).splitOn '_' = [] :: r.splitOn '_' := fun r =>
      List.splitOn_append_cons_self [] r
    rw [htext, List.splitOn_append_cons_self, hempty, ih, List.flatMap_cons, List.cons_append]

theorem splitOn_specialText (p : Name) (a : Option Name) (bs : List Name) :
    (specialText p a bs).splitOn '_' = specialWords p a bs := by
  have hbound : ∀ bs : List Name,
      ("__".toList ++ p ++ bs.flatMap fun b => "__".toList ++ b).splitOn '_' =
        [] :: [] :: p.splitOn '_' ++ bs.flatMap fun b => [] :: b.splitOn '_' := by
    intro bs
    rw [splitOn_callbacks, splitOn_underscores]
  cases a with
  | none => exact hbound bs
  | some a =>
    cases bs with
    | nil =>
      rw [specialText, List.splitOn_append_cons_self, splitOn_underscores]
      rfl
    | cons b bs => exact hbound (b :: bs)

theorem symbol_special_eq_iff (perUnit : Bool) (p q : Name) (a b : Option Name)
    (bs cs : List Name) :
    (Definition.special p a bs).symbol perUnit = (Definition.special q b cs).symbol perUnit ↔
      cutWords 255 (specialWords p a bs) = cutWords 255 (specialWords q b cs) := by
  rw [symbol_special, symbol_special, take_eq_take_iff '_', splitOn_specialText,
    splitOn_specialText]

end Words

/-! ## When two definitions get one symbol -/

section Symbols

theorem cgFnsym_false {n : Name} (h : n ≠ "main".toList) : cgFnsym false n = n := by
  rw [cgFnsym]
  split
  · next hmain => exact (hmain.resolve_left h).symm
  · rfl

theorem cgFnsym_true {n : Name} (h : n ≠ "main".toList ∧ n ≠ "main_user".toList) :
    cgFnsym true n = "arche.".toList ++ n.take 505 := by
  rw [cgFnsym, if_neg (not_or.mpr h), if_pos rfl, List.take_append]
  rfl

theorem head?_special (perUnit : Bool) (p : Name) (a : Option Name) (bs : List Name) :
    ((Definition.special p a bs).symbol perUnit).head? = some '_' := by
  rw [symbol_special]
  cases a with
  | none => rfl
  | some a => cases bs <;> rfl

theorem head?_cgFnsym_true (n : Name) : (cgFnsym true n).head? ≠ some '_' := by
  rw [cgFnsym]
  split
  · decide
  · simp

theorem symbol_plain_eq_special_iff (perUnit : Bool) (n p : Name) (a : Option Name)
    (bs : List Name) :
    (Definition.plain n).symbol perUnit = (Definition.special p a bs).symbol perUnit ↔
      perUnit = false ∧ n.splitOn '_' = cutWords 255 (specialWords p a bs) := by
  have hhead := head?_special perUnit p a bs
  cases perUnit with
  | true =>
    refine iff_of_false (fun heq => ?_) fun h => Bool.noConfusion h.1
    rw [← heq] at hhead
    exact head?_cgFnsym_true n hhead
  | false =>
    rw [← splitOn_specialText, ← eq_take_iff, ← symbol_special false, and_iff_right rfl]
    by_cases hmain : n = "main".toList
    · -- neither `main_user` nor `main` begins with an underscore
      subst hmain
      refine iff_of_false (fun heq => ?_) fun heq => ?_
      · rw [← heq] at hhead
        revert hhead
        decide
      · rw [← heq] at hhead
        revert hhead
        decide
    · rw [Definition.symbol, cgFnsym_false hmain]

/-- `main` is renamed, and `main_user` keeps its name. -/
def isMain (n : Name) : Prop := n = "main".toList ∨ n = "main_user".toList

theorem cgFnsym_eq_main_iff (perUnit : Bool) (n : Name) :
    cgFnsym perUnit n = "main_user".toList ↔ isMain n := by
  rw [cgFnsym]
  split
  · next h => exact iff_of_true rfl h
  · next h =>
    refine iff_of_false (fun heq => ?_) h
    cases perUnit with
    | true =>
      have hhead := congrArg List.head? heq
      revert hhead
      simp
    | false => exact h (.inr heq)

theorem not_isMain_iff {n : Name} :
    ¬ isMain n ↔ n ≠ "main".toList ∧ n ≠ "main_user".toList := not_or

theorem symbol_plain_eq_iff (perUnit : Bool) {n m : Name} (hne : n ≠ m) :
    (Definition.plain n).symbol perUnit = (Definition.plain m).symbol perUnit ↔
      Clash perUnit (.plain n) (.plain m) := by
  have hn := cgFnsym_eq_main_iff perUnit n
  have hm := cgFnsym_eq_main_iff perUnit m
  simp only [Definition.symbol, Clash, List.forall_mem_cons, ← not_isMain_iff]
  by_cases hmainN : isMain n <;> by_cases hmainM : isMain m
  · refine iff_of_true ((hn.mpr hmainN).trans (hm.mpr hmainM).symm) ?_
    rcases hmainN with rfl | rfl <;> rcases hmainM with rfl | rfl
    · exact absurd rfl hne
    · exact .inl ⟨rfl, rfl⟩
    · exact .inr (.inl ⟨rfl, rfl⟩)
    · exact absurd rfl hne
  · refine iff_of_false (fun heq => hmainM (hm.mp (heq ▸ hn.mpr hmainN))) ?_
    rintro (⟨-, h⟩ | ⟨-, h⟩ | ⟨-, -, h, -⟩)
    · exact hmainM (.inr h)
    · exact hmainM (.inl h)
    · exact h hmainN
  · refine iff_of_false (fun heq => hmainN (hn.mp (heq ▸ hm.mpr hmainM))) ?_
    rintro (⟨h, -⟩ | ⟨h, -⟩ | ⟨-, -, -, h, -⟩)
    · exact hmainN (.inl h)
    · exact hmainN (.inr h)
    · exact h hmainM
  · have hnames : ¬ (n = "main".toList ∧ m = "main_user".toList) ∧
        ¬ (n = "main_user".toList ∧ m = "main".toList) :=
      ⟨fun h => hmainN (.inl h.1), fun h => hmainN (.inr h.1)⟩
    rw [or_iff_right hnames.1, or_iff_right hnames.2]
    cases perUnit with
    | false =>
      refine iff_of_false (fun heq => hne ?_) fun h => Bool.noConfusion h.1
      rwa [cgFnsym_false (not_isMain_iff.mp hmainN).1,
        cgFnsym_false (not_isMain_iff.mp hmainM).1] at heq
    | true =>
      rw [cgFnsym_true (not_isMain_iff.mp hmainN), cgFnsym_true (not_isMain_iff.mp hmainM),
        List.append_cancel_left_eq]
      exact ⟨fun h => ⟨rfl, h, hmainN, hmainM, fun _ hk => absurd hk List.not_mem_nil⟩,
        fun h => h.2.1⟩

/-- Two different definitions get one symbol if and only if they clash. -/
theorem symbol_eq_iff (perUnit : Bool) {d d' : Definition} (hne : d ≠ d') :
    d.symbol perUnit = d'.symbol perUnit ↔ Clash perUnit d d' := by
  cases d with
  | plain n =>
    cases d' with
    | plain m => exact symbol_plain_eq_iff perUnit fun h => hne (congrArg _ h)
    | special q b cs => exact symbol_plain_eq_special_iff perUnit n q b cs
  | special p a bs =>
    cases d' with
    | plain m => exact eq_comm.trans (symbol_plain_eq_special_iff perUnit m p a bs)
    | special q b cs => exact symbol_special_eq_iff perUnit p q a b bs cs

end Symbols

/-! ## When two shaders get one symbol -/

section Shaders

/-- A character that is an underscore in an identifier. -/
def IsGap (c : Char) : Prop := c = '_' ∨ isIdentChar c = false

/-- Two names that differ only where both have an underscore in the identifier. -/
def SameIdent (n m : Name) : Prop := List.Forall₂ (fun c d => c = d ∨ IsGap c ∧ IsGap d) n m

theorem identChar_eq_iff (c d : Char) :
    ((if isIdentChar c then c else '_') = if isIdentChar d then d else '_') ↔
      c = d ∨ IsGap c ∧ IsGap d := by
  have hgap : ∀ c, (if isIdentChar c then c else '_') = '_' ↔ IsGap c := by
    intro c
    cases hc : isIdentChar c with
    | true => rw [if_pos rfl, IsGap, hc, or_iff_left (Bool.noConfusion ·)]
    | false => exact iff_of_true (if_neg Bool.false_ne_true) (.inr hc)
  have hkept : ∀ c, ¬ IsGap c → (if isIdentChar c then c else '_') = c := by
    intro c hc
    exact if_pos (Bool.not_eq_false _ ▸ fun h => hc (.inr h))
  by_cases hc : IsGap c
  · rw [(hgap c).mpr hc, eq_comm, hgap d]
    exact ⟨fun hd => .inr ⟨hc, hd⟩, fun h => h.elim (· ▸ hc) And.right⟩
  · rw [hkept c hc]
    by_cases hd : IsGap d
    · rw [(hgap d).mpr hd]
      exact iff_of_false (fun h => hc (.inl h)) fun h => h.elim (fun h => hc (h ▸ hd)) (hc ·.1)
    · rw [hkept d hd]
      exact ⟨.inl, fun h => h.resolve_right (hc ·.1)⟩

/-- Two names with room in the buffer get one identifier if and only if they differ only in what is
an underscore there. -/
theorem gpuCIdent_eq_iff {n m : Name} (hn : n.length ≤ 255) (hm : m.length ≤ 255) :
    gpuCIdent n = gpuCIdent m ↔ SameIdent n m := by
  rw [gpuCIdent, gpuCIdent, List.take_of_length_le hn, List.take_of_length_le hm,
    ← List.forall₂_eq_eq_eq, List.forall₂_map_left_iff, List.forall₂_map_right_iff, SameIdent]
  simp only [identChar_eq_iff]

theorem shaderSymbol_eq_iff {n m : Name} (hn : n.length ≤ 255) (hm : m.length ≤ 255) :
    shaderSymbol n = shaderSymbol m ↔ SameIdent n m := by
  rw [shaderSymbol, shaderSymbol, List.append_cancel_left_eq, gpuCIdent_eq_iff hn hm]

end Shaders

end Arche.Codegen.Symbols
