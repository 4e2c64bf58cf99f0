import Arche.Semantic.SemTypes
import Mathlib.Data.List.Induction

/-!
# Types and their ids

`TypeForm` is a type as the caller of its constructor gives it, with names as texts. The nodes of an
arena stand for forms, `forms`, and a constructor numbers its form among them.

1. `Call.number_form`: a call returns the number of its form, which it appends if it is new.
2. `identity_stable_iff`: ids stand for forms through a history exactly if every effect with more
   than 64 out-slots has no name from out-slot 63 on, counted from 0.
3. `not_identity_stable`: two effects of 65 out-slots with different names are one type.
-/

namespace Arche.Semantic.SemTypes

open Arche.Lib

/-! ## Forms -/

/-- A type as its constructor's caller gives it. -/
inductive TypeForm
  | prim (p : PrimKind)
  | nominal (name : Option String) (backing : TypeId)
  | slice (elem : TypeId)
  | array (elem : TypeId) (len : Int)
  | tuple (fields : List (Option String × TypeId))
  | sum (name : Option String)
  | handle (archetypeName : Option String)
  | eff (externName : Option String) (outSlots : List TypeId) (names : List (Option String))
  | archetypeCategory
  | callable (kind : CallableKind) (params returns : List TypeId)
  deriving DecidableEq

/-- The effect without an extern is the structural one, and effects without names are those whose
names are all `NULL`. -/
def Call.form : Call → TypeForm
  | .ofPrim p => .prim p
  | .ofNominal name => .nominal name tyidUnknown
  | .ofNominalSub name backing => .nominal name backing
  | .ofSlice elem => .slice elem
  | .ofArray elem rank => .array elem rank
  | .ofTuple fields => .tuple fields
  | .sumForward name => .sum name
  | .ofHandle name => .handle name
  | .ofEffStructural outs => .eff none outs (outs.map fun _ => none)
  | .ofEffConcrete ext outs => .eff ext outs (outs.map fun _ => none)
  | .ofEffNamed ext slots => .eff ext (slots.map Prod.fst) (slots.map Prod.snd)
  | .ofArchetypeCategory => .archetypeCategory
  | .ofFunc params returns => .callable .func params returns
  | .ofProc params returns => .callable .proc params returns
  | .ofMap params => .callable .map params []
  | .ofPolicy params => .callable .policy params []

/-- The accessors of `t` give back the form. -/
def Describes (a : TypeArena) (t : TypeId) : TypeForm → Prop
  | .prim p => tyidKind a t = .prim ∧ tyidPrim a t = p
  | .nominal name backing =>
    tyidKind a t = .nominal ∧ text a.strings (tyidNominalName a t) = name ∧
      tyidBacking a t = backing
  | .slice elem => tyidKind a t = .slice ∧ tyidElem a t = elem
  | .array elem len => tyidKind a t = .array ∧ tyidElem a t = elem ∧ tyidArrayLen a t = len
  | .tuple fields =>
    tyidKind a t = .tuple ∧ tyidTupleCount a t = fields.length ∧
      ∀ i f, fields[i]? = some f →
        text a.strings (tyidTupleFieldName a t i) = f.1 ∧ tyidTupleFieldType a t i = f.2
  | .sum name => tyidKind a t = .sum ∧ text a.strings (tyidSumName a t) = name
  | .handle name => tyidKind a t = .handle ∧ text a.strings (tyidHandleName a t) = name
  | .eff ext outs names =>
    tyidKind a t = .eff ∧ text a.strings (tyidEffExternName a t) = ext ∧
      tyidEffOutCount a t = outs.length ∧
      (∀ i s, outs[i]? = some s → tyidEffOutAt a t i = s) ∧
      ∀ i s, names[i]? = some s → text a.strings (tyidEffOutNameAt a t i) = s
  | .archetypeCategory => tyidKind a t = .archetypeCategory
  | .callable k _ _ =>
    tyidKind a t = k.kind ∧ tyidIsProc a t = (k == .proc) ∧
      tyidIsCallable a t = (k == .func || k == .proc)

/-- Ids stand for forms: equal exactly if the forms are, and each describes its form from its call
on. -/
def IdentityStable (ops : List Op) : Prop :=
  (∀ i j c d, ops[i]? = some (.call c) → ops[j]? = some (.call d) →
    (idAt ops i = idAt ops j ↔ c.form = d.form)) ∧
  ∀ i n c, ops[i]? = some (.call c) → i < n → n ≤ ops.length →
    Describes (after (ops.take n)) (idAt ops i) c.form

/-- No name stands at out-slot 63 or later of an effect with more than 64 of them. -/
def Call.NamesFit : Call → Prop
  | .ofEffNamed _ slots => slots.length ≤ 64 ∨ ∀ s ∈ slots.drop 63, s.2 = none
  | _ => True

/-! ## The string pool -/

/-- A pointer into the pool. -/
def InPool (ss : List String) (p : Name) : Prop := ∀ i, p = some i → i < ss.length

/-- What interning a text leaves. -/
structure Grown (a b : TypeArena) : Prop where
  nodes : b.nodes = a.nodes
  strings : a.strings <+: b.strings
  nodup : a.strings.Nodup → b.strings.Nodup

theorem Grown.refl (a : TypeArena) : Grown a a := ⟨rfl, List.prefix_rfl, id⟩

theorem Grown.trans {a b c : TypeArena} (hab : Grown a b) (hbc : Grown b c) : Grown a c :=
  ⟨hbc.nodes.trans hab.nodes, hab.strings.trans hbc.strings, hbc.nodup ∘ hab.nodup⟩

theorem InPool.mono {ss ss' : List String} {p : Name} (hp : InPool ss p) (h : ss <+: ss') :
    InPool ss' p :=
  fun i hi => Nat.lt_of_lt_of_le (hp i hi) h.length_le

theorem text_mono {ss ss' : List String} {p : Name} (hp : InPool ss p) (h : ss <+: ss') :
    text ss' p = text ss p := by
  cases p with
  | none => rfl
  | some i =>
    obtain ⟨t, rfl⟩ := h
    exact List.getElem?_append_left (hp i rfl)

theorem text_eq_none {ss : List String} {p : Name} (hp : InPool ss p) :
    text ss p = none ↔ p = none := by
  cases p with
  | none => exact ⟨fun _ => rfl, fun _ => rfl⟩
  | some i => simp [text, List.getElem?_eq_getElem (hp i rfl)]

/-- Pointers of the pool are equal exactly if their texts are. -/
theorem text_inj {ss : List String} (hss : ss.Nodup) {p q : Name} (hp : InPool ss p)
    (hq : InPool ss q) : text ss p = text ss q ↔ p = q := by
  refine ⟨fun h => ?_, fun h => h ▸ rfl⟩
  cases p with
  | none => exact ((text_eq_none hq).1 h.symm).symm
  | some i =>
    cases q with
    | none => exact (text_eq_none hp).1 h
    | some j => exact congrArg some ((List.getElem?_inj (hp i rfl) hss).1 h)

theorem internStr_grown (a : TypeArena) (s : Option String) : Grown a (internStr a s).2 := by
  cases s with
  | none => exact Grown.refl a
  | some s =>
    refine ⟨rfl, isPrefix_findOrPush _ _ _, fun hss => ?_⟩
    have hnum := findOrPush_eq (k := s) id (l := a.strings) (fun y _ => beq_iff_eq) rfl
    have hstrings : (findOrPush (· == s) s a.strings).2 = (number s a.strings).2 := by
      simpa using congrArg Prod.snd hnum
    change (findOrPush (· == s) s a.strings).2.Nodup
    rw [hstrings]
    exact nodup_number s hss

theorem internStr_inPool (a : TypeArena) (s : Option String) :
    InPool (internStr a s).2.strings (internStr a s).1 := by
  cases s with
  | none => exact fun _ h => nomatch h
  | some s =>
    rintro i ⟨⟩
    obtain ⟨y, hy, -⟩ := findOrPush_entry (· == s) s a.strings
    exact (List.getElem?_eq_some_iff.1 hy).1

theorem internStr_text (a : TypeArena) (s : Option String) :
    text (internStr a s).2.strings (internStr a s).1 = s := by
  cases s with
  | none => rfl
  | some s =>
    obtain ⟨y, hy, h | ⟨-, h⟩⟩ := findOrPush_entry (· == s) s a.strings
    · exact hy.trans (congrArg some h)
    · exact hy.trans (congrArg some (beq_iff_eq.1 h))

theorem internStrs_grown (a : TypeArena) (ss : List (Option String)) :
    Grown a (internStrs a ss).2 := by
  induction ss generalizing a with
  | nil => exact Grown.refl a
  | cons s ss ih => exact (internStr_grown a s).trans (ih _)

theorem internStrs_length (a : TypeArena) (ss : List (Option String)) :
    (internStrs a ss).1.length = ss.length := by
  induction ss generalizing a with
  | nil => rfl
  | cons s ss ih => exact congrArg (· + 1) (ih _)

theorem internStrs_inPool (a : TypeArena) (ss : List (Option String)) :
    ∀ p ∈ (internStrs a ss).1, InPool (internStrs a ss).2.strings p := by
  induction ss generalizing a with
  | nil => exact fun p hp => nomatch hp
  | cons s ss ih =>
    intro p hp
    rcases List.mem_cons.1 hp with rfl | hp
    · exact (internStr_inPool a s).mono (internStrs_grown _ ss).strings
    · exact ih _ p hp

theorem internStrs_text (a : TypeArena) (ss : List (Option String)) :
    (internStrs a ss).1.map (text (internStrs a ss).2.strings) = ss := by
  induction ss generalizing a with
  | nil => rfl
  | cons s ss ih =>
    refine List.cons_eq_cons.2 ⟨?_, ih _⟩
    exact (text_mono (internStr_inPool a s) (internStrs_grown _ ss).strings).trans
      (internStr_text a s)

/-! ## The names of an effect -/

theorem inames_concat (l : List Name) (x : Name) :
    inames (l ++ [x]) = (inames l).set (min l.length 63) x := by
  have hcell : (if l.length < 64 then l.length else 63) = min l.length 63 := by
    split <;> omega
  rw [inames, List.zipIdx_append, List.foldl_append, Nat.zero_add, List.zipIdx_singleton,
    List.foldl_cons, List.foldl_nil, hcell]
  rfl

theorem inames_length (l : List Name) : (inames l).length = 64 := by
  induction l using List.reverseRecOn with
  | nil => rfl
  | append_singleton l x ih => rw [inames_concat, List.length_set, ih]

/-- The cells before the last have their own names. -/
theorem inames_getElem?_lt (l : List Name) {j : Nat} (hj : j < 63) (hl : j < l.length) :
    (inames l)[j]? = l[j]? := by
  induction l using List.reverseRecOn with
  | nil => cases hl
  | append_singleton l x ih =>
    have h64 := inames_length l
    rw [inames_concat]
    rw [List.length_append, List.length_singleton] at hl
    by_cases hlast : j = l.length
    · subst hlast
      rw [Nat.min_eq_left (by omega), List.getElem?_set_self (by omega),
        List.getElem?_append_right (Nat.le_refl _), Nat.sub_self]
      rfl
    · rw [List.getElem?_set_ne (by omega), ih (by omega), List.getElem?_append_left (by omega)]

/-- The last cell has the last name. -/
theorem inames_last (l : List Name) (hl : 64 ≤ l.length) : (inames l)[63]? = l.getLast? := by
  cases l using List.reverseRecOn with
  | nil => cases hl
  | append_singleton l x _ =>
    rw [List.length_append, List.length_singleton] at hl
    rw [inames_concat, List.getLast?_concat, Nat.min_eq_right (by omega),
      List.getElem?_set_self (by rw [inames_length]; omega)]

/-- Names that fit are all in the buffer. -/
theorem inames_eq {l : List Name} (hfit : l.length ≤ 64 ∨ ∀ p ∈ l.drop 63, p = none) {j : Nat}
    (hj : j < min l.length 64) : ((inames l)[j]?).join = (l[j]?).join := by
  by_cases h63 : j < 63
  · rw [inames_getElem?_lt l h63 (by omega)]
  · obtain rfl : j = 63 := by omega
    rw [inames_last l (by omega), List.getLast?_eq_getElem?]
    rcases hfit with hlen | hnone
    · rw [show l.length - 1 = 63 by omega]
    · have hcell : ∀ i, 63 ≤ i → i < l.length → l[i]? = some none := by
        intro i hi hlt
        have hmem : l[i] ∈ l.drop 63 :=
          List.mem_drop_iff_getElem.2 ⟨i - 63, by omega, by congr 1; omega⟩
        rw [List.getElem?_eq_getElem hlt, hnone _ hmem]
      rw [hcell _ (by omega) (by omega), hcell 63 (Nat.le_refl _) (by omega)]

theorem slotName_kept (iname : List Name) (count j : Nat) :
    slotName (some (keptNames iname count)) j =
      if j < min count 64 then (iname[j]?).join else none := by
  unfold slotName keptNames
  rw [Option.bind_some, List.getElem?_map]
  by_cases hj : j < count
  · rw [List.getElem?_range hj, Option.map_some, Option.join_some]
    simp only [Nat.lt_min, hj, true_and]
  · rw [List.getElem?_eq_none (by simpa using hj), if_neg (by omega)]
    rfl

/-! ## Forms of nodes -/

/-- The form a node stands for. -/
def TypeNode.form (ss : List String) : TypeNode → TypeForm
  | .prim p => .prim p
  | .nominal name backing => .nominal (text ss name) backing
  | .slice elem => .slice elem
  | .array elem len => .array elem len
  | .tuple fields => .tuple (fields.map fun f => (text ss f.1, f.2))
  | .sum name _ => .sum (text ss name)
  | .handle name => .handle (text ss name)
  | .eff ext outs names =>
    .eff (text ss ext) outs ((List.range outs.length).map fun j => text ss (slotName names j))
  | .archetypeCategory => .archetypeCategory
  | .callable k params returns => .callable k params returns

/-- The pointers of a node are of the pool, and an effect keeps 64 names at most. -/
def TypeNode.InPool (ss : List String) : TypeNode → Prop
  | .nominal name _ | .sum name _ | .handle name => SemTypes.InPool ss name
  | .tuple fields => ∀ f ∈ fields, SemTypes.InPool ss f.1
  | .eff ext _ names =>
    SemTypes.InPool ss ext ∧ (∀ j, SemTypes.InPool ss (slotName names j)) ∧
      ∀ j, 64 ≤ j → slotName names j = none
  | _ => True

theorem TypeNode.InPool.mono {ss ss' : List String} (h : ss <+: ss') {n : TypeNode}
    (hn : n.InPool ss) : n.InPool ss' := by
  cases n with
  | nominal name _ => exact SemTypes.InPool.mono hn h
  | sum name _ => exact SemTypes.InPool.mono hn h
  | handle name => exact SemTypes.InPool.mono hn h
  | tuple fields => exact fun f hf => (hn f hf).mono h
  | eff ext _ names => exact ⟨hn.1.mono h, fun j => (hn.2.1 j).mono h, hn.2.2⟩
  | _ => trivial

theorem TypeNode.form_mono {ss ss' : List String} (h : ss <+: ss') {n : TypeNode}
    (hn : n.InPool ss) : n.form ss' = n.form ss := by
  cases n with
  | nominal name backing => exact congrArg (TypeForm.nominal · backing) (text_mono hn h)
  | sum name _ => exact congrArg TypeForm.sum (text_mono hn h)
  | handle name => exact congrArg TypeForm.handle (text_mono hn h)
  | tuple fields =>
    refine congrArg TypeForm.tuple (List.map_congr_left fun f hf => ?_)
    rw [text_mono (hn f hf) h]
  | eff ext outs names =>
    refine congr_arg₂ (TypeForm.eff · outs ·) (text_mono hn.1 h) ?_
    exact List.map_congr_left fun j _ => text_mono (hn.2.1 j) h
  | _ => rfl

/-- The invariant of an arena. -/
structure WellFormed (a : TypeArena) : Prop where
  strings : a.strings.Nodup
  nodes : ∀ n ∈ a.nodes, n.InPool a.strings

/-- The forms of the types of an arena. -/
def forms (a : TypeArena) : List TypeForm := a.nodes.map (TypeNode.form a.strings)

theorem WellFormed.grown {a b : TypeArena} (ha : WellFormed a) (h : Grown a b) : WellFormed b := by
  refine ⟨h.nodup ha.strings, fun n hn => ?_⟩
  rw [h.nodes] at hn
  exact (ha.nodes n hn).mono h.strings

theorem forms_grown {a b : TypeArena} (ha : WellFormed a) (h : Grown a b) : forms b = forms a := by
  unfold forms
  rw [h.nodes]
  exact List.map_congr_left fun n hn => TypeNode.form_mono h.strings (ha.nodes n hn)

/-! ## One call -/

/-- A call returns the number of `k`, and the forms are those of `a` with `k`. -/
structure Numbers (a : TypeArena) (k : TypeForm) (r : TypeId × TypeArena) : Prop where
  id : r.1 = (number k (forms a)).1 + 1
  forms : forms r.2 = (number k (forms a)).2

theorem Numbers.of_grown {a b : TypeArena} (ha : WellFormed a) (h : Grown a b) {k : TypeForm}
    {r : TypeId × TypeArena} (hr : Numbers b k r) : Numbers a k r := by
  have hforms := forms_grown ha h
  exact ⟨hforms ▸ hr.id, hforms ▸ hr.forms⟩

theorem internNode_numbers {a : TypeArena} {same : TypeNode → Bool} {node : TypeNode}
    {k : TypeForm} (hsame : ∀ n ∈ a.nodes, same n = true ↔ n.form a.strings = k)
    (hnode : node.form a.strings = k) : Numbers a k (internNode a same node) := by
  have h := findOrPush_eq (TypeNode.form a.strings) hsame hnode
  exact ⟨congrArg (· + 1) (congrArg Prod.fst h), congrArg Prod.snd h⟩

theorem internNode_wellFormed {a : TypeArena} (ha : WellFormed a) {same : TypeNode → Bool}
    {node : TypeNode} (hnode : node.InPool a.strings) : WellFormed (internNode a same node).2 := by
  refine ⟨ha.strings, fun n hn => ?_⟩
  rcases mem_findOrPush hn with hold | rfl
  · exact ha.nodes n hold
  · exact hnode

theorem sameArray_iff {α : Type} [DecidableEq α] (l m : List α) : sameArray l m = true ↔ l = m := by
  induction l generalizing m with
  | nil => cases m <;> simp [sameArray]
  | cons x l ih =>
    cases m with
    | nil => simp [sameArray]
    | cons y m =>
      rw [List.cons_eq_cons, ← ih m]
      simp only [sameArray, List.length_cons, List.zip_cons_cons, List.all_cons,
        Bool.and_eq_true, beq_iff_eq, Nat.add_right_cancel_iff]
      tauto

theorem map_text_inj {ss : List String} (hss : ss.Nodup) {l m : List (Name × TypeId)}
    (hl : ∀ f ∈ l, InPool ss f.1) (hm : ∀ f ∈ m, InPool ss f.1) :
    (l.map fun f => (text ss f.1, f.2)) = (m.map fun f => (text ss f.1, f.2)) ↔ l = m := by
  induction l generalizing m with
  | nil => cases m <;> simp
  | cons f l ih =>
    cases m with
    | nil => simp
    | cons g m =>
      have hhead := text_inj hss (hl f List.mem_cons_self) (hm g List.mem_cons_self)
      have htail := ih (m := m) (fun x hx => hl x (List.mem_cons_of_mem f hx))
        (fun x hx => hm x (List.mem_cons_of_mem g hx))
      rw [List.map_cons, List.map_cons, List.cons_eq_cons, List.cons_eq_cons, htail, Prod.ext_iff,
        Prod.ext_iff, hhead]

/-- A constructor with one name, from what its test and its node are for a pointer to that name. -/
theorem named_numbers {a : TypeArena} (ha : WellFormed a) (name : Option String) (mk : Name → TypeNode) (k : TypeForm)
    (same : Name → TypeNode → Bool)
    (hsame : ∀ (ss : List String) (p : Name), ss.Nodup → InPool ss p → text ss p = name →
      ∀ n : TypeNode, n.InPool ss → (same p n = true ↔ n.form ss = k))
    (hform : ∀ (ss : List String) (p : Name), text ss p = name → (mk p).form ss = k) :
    Numbers a k
      (internNode (internStr a name).2 (same (internStr a name).1) (mk (internStr a name).1)) := by
  have hb := ha.grown (internStr_grown a name)
  refine .of_grown ha (internStr_grown a name) (internNode_numbers (fun n hn => ?_) ?_)
  · exact hsame _ _ hb.strings (internStr_inPool a name) (internStr_text a name) n (hb.nodes n hn)
  · exact hform _ _ (internStr_text a name)

/-- The names of an effect are `l` exactly if its pointers are. -/
theorem slotNames_iff {ss : List String} (hss : ss.Nodup) {names : Option (List Name)}
    (hnames : ∀ j, InPool ss (slotName names j)) {l : List Name} (hl : ∀ p ∈ l, InPool ss p) :
    ((List.range l.length).map fun j => text ss (slotName names j)) = l.map (text ss) ↔
      ∀ j < l.length, slotName names j = (l[j]?).join := by
  have hcell : ∀ j (hj : j < l.length),
      (text ss (slotName names j) = text ss l[j] ↔ slotName names j = (l[j]?).join) := by
    intro j hj
    rw [text_inj hss (hnames j) (hl _ (List.getElem_mem hj)), List.getElem?_eq_getElem hj,
      Option.join_some]
  constructor
  · intro h j hj
    have hj' := congrArg (·[j]?) h
    simp only [List.getElem?_map, List.getElem?_range hj, List.getElem?_eq_getElem hj,
      Option.map_some, Option.some.injEq] at hj'
    exact (hcell j hj).1 hj'
  · intro h
    refine List.ext_getElem (by simp) fun j hj _ => ?_
    rw [List.length_map, List.length_range] at hj
    simpa using (hcell j hj).2 (h j hj)

/-- For names that fit, the first 64 decide. -/
theorem inames_decide {l : List Name} (hfit : l.length ≤ 64 ∨ ∀ p ∈ l.drop 63, p = none)
    {names : Option (List Name)} (hnames : ∀ j, 64 ≤ j → slotName names j = none) :
    (∀ j < min l.length 64, slotName names j = ((inames l)[j]?).join) ↔
      ∀ j < l.length, slotName names j = (l[j]?).join := by
  constructor
  · intro h j hj
    by_cases h64 : j < 64
    · rw [h j (by omega), inames_eq hfit (by omega)]
    · have hnone : l[j] = none := by
        rcases hfit with hlen | hnone
        · omega
        · exact hnone _ (List.mem_drop_iff_getElem.2 ⟨j - 63, by omega, by congr 1; omega⟩)
      rw [hnames j (by omega), List.getElem?_eq_getElem hj, hnone]
      rfl
  · intro h j hj
    rw [inames_eq hfit hj, h j (by omega)]

theorem slotName_stored (iname : List Name) (count : Nat) (hasName : Bool)
    (h : hasName = false → ∀ j < min count 64, (iname[j]?).join = none) (j : Nat) :
    slotName (if hasName then some (keptNames iname count) else none) j =
      if j < min count 64 then (iname[j]?).join else none := by
  cases hasName with
  | true => exact slotName_kept iname count j
  | false =>
    by_cases hj : j < min count 64
    · rw [if_pos hj, h rfl j hj]
      rfl
    · rw [if_neg hj]
      rfl

theorem inames_mem (l : List Name) : ∀ p ∈ inames l, p ∈ l ∨ p = none := by
  induction l using List.reverseRecOn with
  | nil => exact fun p hp => .inr (List.eq_of_mem_replicate hp)
  | append_singleton l x ih =>
    intro p hp
    rw [inames_concat] at hp
    rcases List.mem_or_eq_of_mem_set hp with hold | rfl
    · exact (ih p hold).imp_left fun h => List.mem_append_left _ h
    · exact .inl (by simp)

/-- What the names of an effect are when its search starts. -/
structure SlotNames (ss : List String) (slots : List (TypeId × Option String)) (l : List Name) :
    Prop where
  length : l.length = slots.length
  inPool : ∀ p ∈ l, InPool ss p
  text : l.map (text ss) = slots.map Prod.snd

theorem internStrs_slotNames (a : TypeArena) (slots : List (TypeId × Option String)) :
    SlotNames (internStrs a (slots.map Prod.snd)).2.strings slots
      (internStrs a (slots.map Prod.snd)).1 :=
  ⟨(internStrs_length a _).trans (List.length_map _), internStrs_inPool a _, internStrs_text a _⟩

/-- Where the texts are `NULL`, the pointers are. -/
theorem SlotNames.none_of {ss : List String} {slots : List (TypeId × Option String)}
    {l : List Name} (h : SlotNames ss slots l) {k : Nat} (hnone : ∀ s ∈ slots.drop k, s.2 = none) :
    ∀ p ∈ l.drop k, p = none := by
  intro p hp
  have hmem : SemTypes.text ss p ∈ (slots.drop k).map Prod.snd := by
    rw [List.map_drop, ← h.text, ← List.map_drop]
    exact List.mem_map_of_mem hp
  obtain ⟨s, hs, htext⟩ := List.mem_map.1 hmem
  exact (text_eq_none (h.inPool p (List.mem_of_mem_drop hp))).1 (htext.symm.trans (hnone s hs))

/-- The names that a new effect has. -/
theorem SlotNames.slotName_new {ss : List String} {slots : List (TypeId × Option String)}
    {l : List Name} (h : SlotNames ss slots l) (j : Nat) :
    slotName (if slots.any fun s => s.2.isSome then some (keptNames (inames l) slots.length)
      else none) j = if j < min slots.length 64 then ((inames l)[j]?).join else none := by
  refine slotName_stored _ _ _ (fun hnone i hi => ?_) j
  have hslots : ∀ s ∈ slots.drop 0, s.2 = none := by
    simpa only [List.drop_zero, List.any_eq_false, Bool.not_eq_true, Option.isSome_eq_false_iff,
      Option.isNone_iff_eq_none] using hnone
  have hl := h.none_of hslots
  rw [List.drop_zero] at hl
  cases hcell : (inames l)[i]? with
  | none => rfl
  | some p =>
    rcases inames_mem l p (List.mem_of_getElem? hcell) with hp | rfl
    · rw [hl p hp]; rfl
    · rfl

/-- The node that a new effect gets. -/
def newEff (ext : Name) (slots : List (TypeId × Option String)) (l : List Name) : TypeNode :=
  .eff ext (slots.map Prod.fst)
    (if slots.any fun s => s.2.isSome then some (keptNames (inames l) slots.length) else none)

/-- The search of `intern_eff`, with what is known of the pointers it uses. -/
theorem internEff_eq (a : TypeArena) (ext : Option String) (slots : List (TypeId × Option String)) :
    ∃ (b : TypeArena) (p : Name) (l : List Name),
      internEff a ext slots =
        internNode b (sameEff p (slots.map Prod.fst) (inames l)) (newEff p slots l) ∧
      Grown a b ∧ InPool b.strings p ∧ text b.strings p = ext ∧ SlotNames b.strings slots l := by
  have hstrs := internStrs_grown (internStr a ext).2 (slots.map Prod.snd)
  have hext := internStr_inPool a ext
  refine ⟨_, (internStr a ext).1, _, ?_, (internStr_grown a ext).trans hstrs,
    hext.mono hstrs.strings, (text_mono hext hstrs.strings).trans (internStr_text a ext),
    internStrs_slotNames _ slots⟩
  rw [internEff, newEff, List.length_map]

theorem newEff_inPool {ss : List String} {p : Name} {slots : List (TypeId × Option String)}
    {l : List Name} (hp : InPool ss p) (h : SlotNames ss slots l) :
    (newEff p slots l).InPool ss := by
  refine ⟨hp, fun j => ?_, fun j hj => ?_⟩
  · rw [h.slotName_new]
    split
    · cases hcell : (inames l)[j]? with
      | none => exact nofun
      | some q =>
        rcases inames_mem l q (List.mem_of_getElem? hcell) with hq | rfl
        · exact h.inPool q hq
        · exact nofun
    · exact nofun
  · rw [h.slotName_new, if_neg (by omega)]

theorem internEff_wellFormed {a : TypeArena} (ha : WellFormed a) (ext : Option String)
    (slots : List (TypeId × Option String)) : WellFormed (internEff a ext slots).2 := by
  obtain ⟨b, p, l, heq, hgrown, hp, -, hsn⟩ := internEff_eq a ext slots
  rw [heq]
  exact internNode_wellFormed (ha.grown hgrown) (newEff_inPool hp hsn)

theorem internEff_numbers {a : TypeArena} (ha : WellFormed a) (ext : Option String)
    (slots : List (TypeId × Option String))
    (hfit : slots.length ≤ 64 ∨ ∀ s ∈ slots.drop 63, s.2 = none) :
    Numbers a (.eff ext (slots.map Prod.fst) (slots.map Prod.snd)) (internEff a ext slots) := by
  obtain ⟨b, p, l, heq, hgrown, hp, htext, hsn⟩ := internEff_eq a ext slots
  have hb := ha.grown hgrown
  have hfits : l.length ≤ 64 ∨ ∀ p ∈ l.drop 63, p = none :=
    hfit.imp (fun h => hsn.length.symm ▸ h) hsn.none_of
  -- Names are those of the call exactly if the first 64 are those of the buffer.
  have hnames : ∀ names : Option (List Name), (∀ j, InPool b.strings (slotName names j)) →
      (∀ j, 64 ≤ j → slotName names j = none) →
      (((List.range slots.length).map fun j => text b.strings (slotName names j)) =
        slots.map Prod.snd ↔
      ∀ j < min slots.length 64, slotName names j = ((inames l)[j]?).join) := by
    intro names hpool hnone
    rw [← hsn.text, ← hsn.length, slotNames_iff hb.strings hpool hsn.inPool,
      inames_decide hfits hnone]
  rw [heq]
  refine .of_grown ha hgrown (internNode_numbers (fun n hn => ?_) ?_)
  · have hpool := hb.nodes n hn
    cases n with
    | eff e outs names =>
      obtain ⟨he, hpool, hnone⟩ := hpool
      have hext : e = p ↔ text b.strings e = ext := by
        rw [← htext, text_inj hb.strings he hp]
      simp only [sameEff, Bool.and_eq_true, beq_iff_eq, sameArray_iff, List.all_eq_true,
        List.mem_range, List.length_map, TypeNode.form, TypeForm.eff.injEq, and_assoc, hext]
      refine and_congr_right fun _ => and_congr_right fun houts => ?_
      rw [houts, List.length_map, hnames names hpool hnone]
    | _ => simp [sameEff, TypeNode.form]
  · obtain ⟨-, hpool, hnone⟩ := newEff_inPool hp hsn
    refine (congrArg (TypeForm.eff · (slots.map Prod.fst) _) htext).trans
      (congrArg (TypeForm.eff ext (slots.map Prod.fst)) ?_)
    rw [List.length_map, hnames _ hpool hnone]
    intro j hj
    rw [hsn.slotName_new, if_pos hj]

theorem internCallable_numbers (a : TypeArena) (kind : CallableKind)
    (params returns : List TypeId) :
    Numbers a (.callable kind params returns) (internCallable a kind params returns) := by
  refine internNode_numbers (fun n _ => ?_) rfl
  cases n with
  | callable k ps rs =>
    simp only [Bool.and_eq_true, beq_iff_eq, sameArray_iff, TypeNode.form, TypeForm.callable.injEq,
      and_assoc]
  | _ => simp [TypeNode.form]

/-- The nodes that `tyid_of_nominal_sub` takes for its own. -/
def sameNominal (backing : TypeId) (p : Name) : TypeNode → Bool
  | .nominal m b => m == p && b == backing
  | _ => false

def sameSum (p : Name) : TypeNode → Bool
  | .sum m _ => m == p
  | _ => false

def sameHandle (p : Name) : TypeNode → Bool
  | .handle m => m == p
  | _ => false

theorem tyidOfNominalSub_numbers {a : TypeArena} (ha : WellFormed a) (name : Option String)
    (backing : TypeId) : Numbers a (.nominal name backing) (tyidOfNominalSub a name backing) := by
  refine named_numbers ha name (TypeNode.nominal · backing) _
    (sameNominal backing) (fun ss p hss hp htext n hn => ?_) fun ss p htext => congrArg (TypeForm.nominal · backing) htext
  cases n with
  | nominal m b =>
    simp only [sameNominal, Bool.and_eq_true, beq_iff_eq, TypeNode.form, TypeForm.nominal.injEq, ← htext,
      text_inj hss hn hp]
  | _ => simp [sameNominal, TypeNode.form]

theorem tyidSumForward_numbers {a : TypeArena} (ha : WellFormed a) (name : Option String) :
    Numbers a (.sum name) (tyidSumForward a name) := by
  refine named_numbers ha name (TypeNode.sum · none) _
    sameSum (fun ss p hss hp htext n hn => ?_) fun ss p htext => congrArg TypeForm.sum htext
  cases n with
  | sum m _ =>
    simp only [sameSum, beq_iff_eq, TypeNode.form, TypeForm.sum.injEq, ← htext, text_inj hss hn hp]
  | _ => simp [sameSum, TypeNode.form]

theorem tyidOfHandle_numbers {a : TypeArena} (ha : WellFormed a) (name : Option String) :
    Numbers a (.handle name) (tyidOfHandle a name) := by
  refine named_numbers ha name TypeNode.handle _
    sameHandle (fun ss p hss hp htext n hn => ?_) fun ss p htext => congrArg TypeForm.handle htext
  cases n with
  | handle m =>
    simp only [sameHandle, beq_iff_eq, TypeNode.form, TypeForm.handle.injEq, ← htext, text_inj hss hn hp]
  | _ => simp [sameHandle, TypeNode.form]

theorem tyidOfTuple_numbers {a : TypeArena} (ha : WellFormed a)
    (fields : List (Option String × TypeId)) :
    Numbers a (.tuple fields) (tyidOfTuple a fields) := by
  have hgrown := internStrs_grown a (fields.map Prod.fst)
  have hb := ha.grown hgrown
  have hin := internStrs_inPool a (fields.map Prod.fst)
  have htext := internStrs_text a (fields.map Prod.fst)
  have hlen := internStrs_length a (fields.map Prod.fst)
  unfold tyidOfTuple
  dsimp only
  generalize internStrs a (fields.map Prod.fst) = r at *
  have hread : ((r.1.zip (fields.map Prod.snd)).map fun f => (text r.2.strings f.1, f.2)) =
      fields := by
    have : (r.1.zip (fields.map Prod.snd)).map (fun f => (text r.2.strings f.1, f.2)) =
        (r.1.map (text r.2.strings)).zip (fields.map Prod.snd) := by
      rw [List.zip_map_left]
      rfl
    rw [this, htext, ← List.unzip_fst, ← List.unzip_snd, List.zip_unzip]
  refine .of_grown ha hgrown (internNode_numbers (fun n hn => ?_) (congrArg TypeForm.tuple hread))
  have hpool := hb.nodes n hn
  cases n with
  | tuple fs =>
    have hinj := map_text_inj hb.strings hpool fun f (hf : f ∈ r.1.zip (fields.map Prod.snd)) =>
      hin _ (List.of_mem_zip hf).1
    rw [hread] at hinj
    simp only [sameArray_iff, TypeNode.form, TypeForm.tuple.injEq, hinj]
  | _ => simp [TypeNode.form]

/-- A call numbers its form. -/
theorem Call.number_form {a : TypeArena} (ha : WellFormed a) {c : Call} (hc : c.NamesFit) :
    Numbers a c.form (c.run a) := by
  -- Effects without names are effects with `NULL` names.
  have hunnamed : ∀ (ext : Option String) (outs : List TypeId),
      Numbers a (.eff ext outs (outs.map fun _ => none)) (internEff a ext (outs.map (·, none))) := by
    intro ext outs
    have h := internEff_numbers ha ext (outs.map (·, none)) (.inr fun s hs => by
      obtain ⟨t, -, rfl⟩ := List.mem_map.1 (List.mem_of_mem_drop hs)
      rfl)
    simpa only [List.map_map, Function.comp_def, List.map_id_fun', id_eq] using h
  cases c with
  | ofPrim p =>
    refine internNode_numbers (fun n _ => ?_) rfl
    cases n <;> simp [TypeNode.form, Call.form]
  | ofNominal name => exact tyidOfNominalSub_numbers ha name tyidUnknown
  | ofNominalSub name backing => exact tyidOfNominalSub_numbers ha name backing
  | ofSlice elem =>
    refine internNode_numbers (fun n _ => ?_) rfl
    cases n <;> simp [TypeNode.form, Call.form]
  | ofArray elem rank =>
    refine internNode_numbers (fun n _ => ?_) rfl
    cases n <;> simp [TypeNode.form, Call.form]
  | ofTuple fields => exact tyidOfTuple_numbers ha fields
  | sumForward name => exact tyidSumForward_numbers ha name
  | ofHandle name => exact tyidOfHandle_numbers ha name
  | ofEffStructural outs => exact hunnamed none outs
  | ofEffConcrete ext outs => exact hunnamed ext outs
  | ofEffNamed ext slots => exact internEff_numbers ha ext slots hc
  | ofArchetypeCategory =>
    refine internNode_numbers (fun n _ => ?_) rfl
    cases n <;> simp [TypeNode.form, Call.form]
  | ofFunc params returns => exact internCallable_numbers a .func params returns
  | ofProc params returns => exact internCallable_numbers a .proc params returns
  | ofMap params => exact internCallable_numbers a .map params []
  | ofPolicy params => exact internCallable_numbers a .policy params []

theorem Call.wellFormed {a : TypeArena} (ha : WellFormed a) (c : Call) :
    WellFormed (c.run a).2 := by
  cases c with
  | ofNominal name =>
    exact internNode_wellFormed (ha.grown (internStr_grown a name)) (internStr_inPool a name)
  | ofNominalSub name backing =>
    exact internNode_wellFormed (ha.grown (internStr_grown a name)) (internStr_inPool a name)
  | sumForward name =>
    exact internNode_wellFormed (ha.grown (internStr_grown a name)) (internStr_inPool a name)
  | ofHandle name =>
    exact internNode_wellFormed (ha.grown (internStr_grown a name)) (internStr_inPool a name)
  | ofTuple fields =>
    refine internNode_wellFormed (ha.grown (internStrs_grown a _)) fun f hf => ?_
    exact internStrs_inPool a _ _ (List.of_mem_zip hf).1
  | ofEffStructural outs => exact internEff_wellFormed ha none _
  | ofEffConcrete ext outs => exact internEff_wellFormed ha ext _
  | ofEffNamed ext slots => exact internEff_wellFormed ha ext slots
  | _ => exact internNode_wellFormed ha trivial

theorem tyidSumComplete_forms {a : TypeArena} (ha : WellFormed a) (sum : TypeId)
    (variants : List (Option String × List TypeId)) :
    WellFormed (tyidSumComplete a sum variants) ∧
      forms (tyidSumComplete a sum variants) = forms a := by
  unfold tyidSumComplete
  split
  · exact ⟨ha, rfl⟩
  · split
    · rename_i name hnode
      have hgrown := internStrs_grown a (variants.map Prod.fst)
      have hb := ha.grown hgrown
      have hsum : TypeNode.sum name none ∈ a.nodes := List.mem_of_getElem? hnode
      have hname := hb.nodes _ (hgrown.nodes.symm ▸ hsum)
      refine ⟨⟨hb.strings, fun n hn => ?_⟩, ?_⟩
      · rcases List.mem_or_eq_of_mem_set hn with hold | rfl
        · exact hb.nodes n (hgrown.nodes.symm ▸ hold)
        · exact hname
      · rw [← forms_grown ha hgrown, forms, forms, hgrown.nodes, List.map_set]
        refine List.ext_getElem? fun i => ?_
        by_cases hi : sum - 1 = i
        · subst hi
          rw [List.getElem?_set_self (by
            rw [List.length_map]; exact (List.getElem?_eq_some_iff.1 hnode).1),
            List.getElem?_map, hnode]
          rfl
        · rw [List.getElem?_set_ne hi]
    · exact ⟨ha, rfl⟩

theorem describes_of_node {a : TypeArena} {t : TypeId} {n : TypeNode} (hn : node a t = some n) :
    Describes a t (n.form a.strings) := by
  cases n with
  | eff ext outs names =>
    refine ⟨by simp [tyidKind, hn, TypeNode.kind], by simp [tyidEffExternName, hn],
      by simp [tyidEffOutCount, hn], fun i s hs => by simp [tyidEffOutAt, hn, hs],
      fun i s hs => ?_⟩
    have hi : i < outs.length := by simpa using (List.getElem?_eq_some_iff.1 hs).1
    rw [List.getElem?_map, List.getElem?_range hi, Option.map_some, Option.some.injEq] at hs
    simpa [tyidEffOutNameAt, hn, hi] using hs
  | tuple fields =>
    refine ⟨by simp [tyidKind, hn, TypeNode.kind], by simp [tyidTupleCount, hn],
      fun i f hf => ?_⟩
    rw [List.getElem?_map, Option.map_eq_some_iff] at hf
    obtain ⟨g, hg, rfl⟩ := hf
    simp [tyidTupleFieldName, tyidTupleFieldType, hn, hg]
  | callable k params returns =>
    cases k <;> simp [Describes, TypeNode.form, tyidKind, tyidIsProc, tyidIsCallable, hn,
      TypeNode.kind, CallableKind.kind]
  | _ =>
    simp [Describes, TypeNode.form, tyidKind, tyidPrim, tyidNominalName, tyidBacking, tyidElem,
      tyidArrayLen, tyidSumName, tyidHandleName, hn, TypeNode.kind]

/-- The node that an effect call finds or makes. Its names are the cells of the buffer. -/
theorem internEff_node {a : TypeArena} (ha : WellFormed a) (ext : Option String)
    (slots : List (TypeId × Option String)) :
    ∃ (e : Name) (names : Option (List Name)) (l : List Name),
      node (internEff a ext slots).2 (internEff a ext slots).1 =
        some (.eff e (slots.map Prod.fst) names) ∧
      SlotNames (internEff a ext slots).2.strings slots l ∧
      (∀ j < min slots.length 64, slotName names j = ((inames l)[j]?).join) ∧
      ∀ j, 64 ≤ j → slotName names j = none := by
  obtain ⟨b, p, l, heq, hgrown, hp, htext, hsn⟩ := internEff_eq a ext slots
  have hb := ha.grown hgrown
  rw [heq]
  obtain ⟨n, hn, hcase⟩ := findOrPush_entry (sameEff p (slots.map Prod.fst) (inames l))
    (newEff p slots l) b.nodes
  have hnode : node (internNode b (sameEff p (slots.map Prod.fst) (inames l))
      (newEff p slots l)).2 (internNode b (sameEff p (slots.map Prod.fst) (inames l))
      (newEff p slots l)).1 = some n := hn
  rw [hnode]
  rcases hcase with rfl | ⟨hmem, hsame⟩
  · refine ⟨p, _, l, rfl, hsn, fun j hj => ?_, (newEff_inPool hp hsn).2.2⟩
    rw [hsn.slotName_new, if_pos hj]
  · have hpool := hb.nodes n hmem
    cases n with
    | eff e outs names =>
      simp only [sameEff, Bool.and_eq_true, beq_iff_eq, sameArray_iff, List.all_eq_true,
        List.mem_range, List.length_map] at hsame
      obtain ⟨⟨-, rfl⟩, hcells⟩ := hsame
      exact ⟨e, names, l, rfl, hsn, hcells, hpool.2.2⟩
    | _ => cases hsame

/-- The names that an effect has at its own call are those of the call only if these fit. -/
theorem namesFit_of_describes {a : TypeArena} (ha : WellFormed a) (ext : Option String)
    (slots : List (TypeId × Option String))
    (h : Describes (internEff a ext slots).2 (internEff a ext slots).1
      (.eff ext (slots.map Prod.fst) (slots.map Prod.snd))) :
    slots.length ≤ 64 ∨ ∀ s ∈ slots.drop 63, s.2 = none := by
  obtain ⟨e, names, l, hnode, hsn, hcells, hnone⟩ := internEff_node ha ext slots
  obtain ⟨-, -, -, -, hnames⟩ := h
  have hname : ∀ j s, slots[j]? = some s →
      text (internEff a ext slots).2.strings (slotName names j) = s.2 := by
    intro j s hs
    have hj : j < slots.length := (List.getElem?_eq_some_iff.1 hs).1
    have := hnames j s.2 (by rw [List.getElem?_map, hs]; rfl)
    simpa [tyidEffOutNameAt, hnode, hj] using this
  refine or_iff_not_imp_left.2 fun hlong s hs => ?_
  obtain ⟨i, hi, rfl⟩ := List.mem_drop_iff_getElem.1 hs
  have hlt : 63 + i < slots.length := by omega
  have hat : slots[63 + i]? = some slots[63 + i] := List.getElem?_eq_getElem hlt
  by_cases h64 : 64 ≤ 63 + i
  · rw [← hname _ _ hat, hnone _ h64]
    rfl
  · obtain rfl : i = 0 := by omega
    -- Cell 63 holds the name of the last slot, which is kept nowhere.
    have hlastnone : (l[l.length - 1]?).join = none := by
      have hl : l.length - 1 < l.length := by rw [hsn.length]; omega
      rw [List.getElem?_eq_getElem hl, Option.join_some]
      refine hsn.none_of (k := slots.length - 1) (fun s hs => ?_) _
        (List.mem_drop_iff_getElem.2 ⟨0, by rw [hsn.length]; omega, by simp [hsn.length]⟩)
      obtain ⟨j, hj, rfl⟩ := List.mem_drop_iff_getElem.1 hs
      have hkept := hname _ _ (List.getElem?_eq_getElem (show slots.length - 1 + j < _ by omega))
      rw [hnone _ (by omega)] at hkept
      exact hkept.symm
    rw [← hname _ _ hat, hcells 63 (by omega), inames_last l (by rw [hsn.length]; omega),
      List.getLast?_eq_getElem?, hlastnone]
    rfl

/-! ## A history -/

theorem after_snoc (ops : List Op) (op : Op) : after (ops ++ [op]) = op.run (after ops) := by
  rw [after, List.foldl_append]
  rfl

theorem after_take_succ {ops : List Op} {i : Nat} {op : Op} (h : ops[i]? = some op) :
    after (ops.take (i + 1)) = op.run (after (ops.take i)) := by
  rw [List.take_add_one, h, Option.toList_some, after_snoc]

theorem after_wellFormed (ops : List Op) : WellFormed (after ops) := by
  induction ops using List.reverseRecOn with
  | nil => exact ⟨List.nodup_nil, fun n hn => nomatch hn⟩
  | append_singleton ops op ih =>
    rw [after_snoc]
    cases op with
    | call c => exact c.wellFormed ih
    | sumComplete sum variants => exact (tyidSumComplete_forms ih sum variants).1

/-- Every name of a history fits. -/
def NamesFit (ops : List Op) : Prop := ∀ c, Op.call c ∈ ops → c.NamesFit

/-- One step keeps the forms apart and where they are. -/
theorem forms_step {a : TypeArena} (ha : WellFormed a) {op : Op}
    (hfit : ∀ c, op = .call c → c.NamesFit) :
    forms a <+: forms (op.run a) ∧ ((forms a).Nodup → (forms (op.run a)).Nodup) := by
  cases op with
  | call c =>
    rw [Op.run, (c.number_form ha (hfit c rfl)).forms]
    exact ⟨isPrefix_number _ _, nodup_number _⟩
  | sumComplete sum variants =>
    rw [Op.run, (tyidSumComplete_forms ha sum variants).2]
    exact ⟨List.prefix_rfl, id⟩

theorem forms_nodup {ops : List Op} (hfit : NamesFit ops) : (forms (after ops)).Nodup := by
  induction ops using List.reverseRecOn with
  | nil => exact List.nodup_nil
  | append_singleton ops op ih =>
    rw [after_snoc]
    refine (forms_step (after_wellFormed ops) fun c hc => hfit c (by simp [hc])).2 ?_
    exact ih fun c hc => hfit c (List.mem_append_left _ hc)

theorem forms_take_prefix {ops : List Op} (hfit : NamesFit ops) {m n : Nat} (h : m ≤ n) :
    forms (after (ops.take m)) <+: forms (after (ops.take n)) := by
  induction h with
  | refl => exact List.prefix_rfl
  | @step n _ ih =>
    cases hop : ops[n]? with
    | none =>
      rw [List.take_add_one, hop, Option.toList_none, List.append_nil]
      exact ih
    | some op =>
      rw [after_take_succ hop]
      refine ih.trans (forms_step (after_wellFormed _) fun c hc => ?_).1
      exact hfit c (hc ▸ List.mem_of_getElem? hop)

/-- From its call on, an id stands where its form is. -/
theorem form_at {ops : List Op} (hfit : NamesFit ops) {i n : Nat} {c : Call}
    (hi : ops[i]? = some (.call c)) (hn : i < n) :
    ∃ k, idAt ops i = k + 1 ∧ (forms (after (ops.take n)))[k]? = some c.form := by
  have hnum := c.number_form (after_wellFormed (ops.take i)) (hfit c (List.mem_of_getElem? hi))
  refine ⟨(number c.form (forms (after (ops.take i)))).1, ?_, ?_⟩
  · rw [idAt, hi]
    exact hnum.id
  · have hget := number_getElem? c.form (forms (after (ops.take i)))
    obtain ⟨rest, hrest⟩ := forms_take_prefix hfit (Nat.succ_le_of_lt hn)
    have hstep : forms (after (ops.take (i + 1))) = _ :=
      (congrArg forms (after_take_succ hi)).trans hnum.forms
    rw [← hstep] at hget
    rw [← hrest, List.getElem?_append_left (List.getElem?_eq_some_iff.1 hget).1]
    exact hget

/-- Ids stand for types through a history exactly if its names fit. -/
theorem identity_stable_iff (ops : List Op) : IdentityStable ops ↔ NamesFit ops := by
  constructor
  · rintro ⟨-, hdescr⟩ c hc
    obtain ⟨i, hi⟩ := List.mem_iff_getElem?.1 hc
    have hlen := (List.getElem?_eq_some_iff.1 hi).1
    have h := hdescr i (i + 1) c hi (Nat.lt_succ_self i) hlen
    rw [after_take_succ hi, idAt, hi] at h
    cases c with
    | ofEffNamed ext slots => exact namesFit_of_describes (after_wellFormed _) ext slots h
    | _ => trivial
  · intro hfit
    refine ⟨fun i j c d hi hj => ?_, fun i n c hi hn hlen => ?_⟩
    · have hn : i < max i j + 1 ∧ j < max i j + 1 := by omega
      obtain ⟨k, hk, hkc⟩ := form_at hfit hi hn.1
      obtain ⟨m, hm, hmd⟩ := form_at hfit hj hn.2
      have hnodup : (forms (after (ops.take (max i j + 1)))).Nodup :=
        forms_nodup fun c hc => hfit c (List.mem_of_mem_take hc)
      rw [hk, hm, Nat.add_right_cancel_iff, place_inj hnodup hkc hmd]
    · obtain ⟨k, hk, hkc⟩ := form_at hfit hi hn
      rw [forms, List.getElem?_map, Option.map_eq_some_iff] at hkc
      obtain ⟨n, hn, hform⟩ := hkc
      rw [hk, ← hform]
      exact describes_of_node hn

/-- An effect of 65 out-slots with a name at the last that has its own cell. -/
def wideEff (name : String) : Call :=
  .ofEffNamed none (List.replicate 63 (1, none) ++ [(1, some name), (1, none)])

/-- Two effects with different names are one type. -/
theorem not_identity_stable :
    ¬ IdentityStable [.call (.ofPrim .int), .call (wideEff "x"), .call (wideEff "y")] := by
  intro h
  have hid := (h.1 1 2 (wideEff "x") (wideEff "y") rfl rfl).1 (by decide +kernel)
  exact absurd hid (by decide +kernel)

end Arche.Semantic.SemTypes
