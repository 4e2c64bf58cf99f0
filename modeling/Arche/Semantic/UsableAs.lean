import Arche.Semantic.TypeIdentity

/-!
# One type used as another

`tyid_usable_as` lets an effect type stand for the annotation with its out-slots, and a distinct
subtype for what its backing chain reaches. The effect rule is asked of the first type only.

* `fuel` bounds the loop over the backing chain. An id argument of a constructor is the unknown type
  or was returned earlier, `Closed`.
* `BackedBy` is the backing chain, `Annotates` the effect rule.

1. `usableAs_ends`: the loop ends within as many rounds as the id and one more.
2. `usableAs_trans_iff`: where one type is usable as a second and this as a third, the first is
   usable as the third unless a subtype is left for an effect type by its chain and this for another
   by the effect rule.
3. `usable_preorder_iff`: the types of an arena are preordered exactly if no distinct subtype ends in
   an effect type that annotates another one.
4. `not_usable_preorder`: a subtype of `Eff(n: int)` is not usable as `Eff(int)`.
-/

namespace Arche.Semantic.SemTypes

open Arche.Lib

/-! ## The test -/

section

variable (a : TypeArena)

/-- The rule for two effect types. A structural target accepts any extern. -/
def effUsableAs (t u : TypeId) : Bool :=
  tyidKind a t == .eff && tyidKind a u == .eff &&
    tyidEffOutCount a t == tyidEffOutCount a u &&
    ((List.range (tyidEffOutCount a t).toNat).all fun i =>
      tyidEffOutAt a t i == tyidEffOutAt a u i) &&
    (tyidEffExternName a u == none || tyidEffExternName a u == tyidEffExternName a t)

/-- The loop over the backing chain. -/
def chainReaches (u : TypeId) : Nat → TypeId → Option Bool
  | 0, _ => none
  | fuel + 1, t =>
    if t = tyidUnknown then some false
    else if t = u then some true
    else chainReaches u fuel (tyidBacking a t)

/-- `tyid_usable_as`, of `t` where `u` is expected. -/
def tyidUsableAs (fuel : Nat) (t u : TypeId) : Option Bool :=
  if effUsableAs a t u then some true else chainReaches a u fuel t

/-! ## What it is for -/

/-- The backing chain of `t` comes to `u`. -/
inductive BackedBy : TypeId → TypeId → Prop
  | refl {t : TypeId} : t ≠ tyidUnknown → BackedBy t t
  | step {t u : TypeId} : t ≠ tyidUnknown → BackedBy (tyidBacking a t) u → BackedBy t u

/-- Two effect types with the same out-slots, of which the second names no extern or that of the
first. -/
structure Annotates (t u : TypeId) : Prop where
  kind : tyidKind a t = .eff
  toKind : tyidKind a u = .eff
  count : tyidEffOutCount a t = tyidEffOutCount a u
  slots : ∀ i : Nat, (i : Int) < tyidEffOutCount a t → tyidEffOutAt a t i = tyidEffOutAt a u i
  externName : tyidEffExternName a u = none ∨ tyidEffExternName a u = tyidEffExternName a t

/-- Some bound on the loop lets the test succeed. -/
def UsableAs (t u : TypeId) : Prop := ∃ fuel, tyidUsableAs a fuel t u = some true

/-- An id of the arena. -/
def KnownId (t : TypeId) : Prop := (node a t).isSome

/-- The test has one answer for every pair of ids, and the known ids are preordered by it. -/
structure UsablePreorder : Prop where
  ends : ∀ t u, ∃ n r, ∀ fuel, n ≤ fuel → tyidUsableAs a fuel t u = some r
  refl : ∀ t, KnownId a t → UsableAs a t t
  trans : ∀ t u v, KnownId a t → KnownId a u → KnownId a v →
    UsableAs a t u → UsableAs a u v → UsableAs a t v

/-- No distinct subtype ends in an effect type that annotates another one. -/
def NoSubtypeOfAnnotated : Prop :=
  ∀ t u v, tyidKind a t = .nominal → BackedBy a t u → Annotates a u v → u = v

end

/-! ## Histories that use their own ids -/

def Call.idArgs : Call → List TypeId
  | .ofPrim _ | .ofNominal _ | .sumForward _ | .ofHandle _ | .ofArchetypeCategory => []
  | .ofNominalSub _ backing => [backing]
  | .ofSlice elem | .ofArray elem _ => [elem]
  | .ofTuple fields => fields.map Prod.snd
  | .ofEffStructural outs | .ofEffConcrete _ outs => outs
  | .ofEffNamed _ slots => slots.map Prod.fst
  | .ofFunc params returns | .ofProc params returns => params ++ returns
  | .ofMap params | .ofPolicy params => params

def Op.idArgs : Op → List TypeId
  | .call c => c.idArgs
  | .sumComplete sum variants => sum :: variants.flatMap Prod.snd

/-- Every id argument is the unknown type or was returned earlier. -/
def Closed (ops : List Op) : Prop :=
  ∀ i op, ops[i]? = some op → ∀ t ∈ op.idArgs, t = tyidUnknown ∨ ∃ j < i, idAt ops j = t

/-- The backing of a nominal type is older than it. -/
def BackingOlder (a : TypeArena) : Prop :=
  ∀ (i : Nat) (name : Name) (backing : TypeId),
    a.nodes[i]? = some (TypeNode.nominal name backing) → backing ≤ i

/-- What a call does to the nodes. A backing that it brings in is an argument. -/
theorem Call.run_eq (a : TypeArena) (c : Call) :
    ∃ b same n, c.run a = internNode b same n ∧ b.nodes = a.nodes ∧
      ∀ name backing, n = .nominal name backing → backing = tyidUnknown ∨ backing ∈ c.idArgs := by
  cases c with
  | ofPrim p => exact ⟨a, _, _, rfl, rfl, by simp⟩
  | ofNominal name => exact ⟨_, _, _, rfl, (internStr_grown a name).nodes, by simp +contextual⟩
  | ofNominalSub name backing =>
    exact ⟨_, _, _, rfl, (internStr_grown a name).nodes, by simp +contextual [Call.idArgs]⟩
  | ofSlice elem => exact ⟨a, _, _, rfl, rfl, by simp⟩
  | ofArray elem rank => exact ⟨a, _, _, rfl, rfl, by simp⟩
  | ofTuple fields => exact ⟨_, _, _, rfl, (internStrs_grown a _).nodes, by simp⟩
  | sumForward name => exact ⟨_, _, _, rfl, (internStr_grown a name).nodes, by simp⟩
  | ofHandle name => exact ⟨_, _, _, rfl, (internStr_grown a name).nodes, by simp⟩
  | ofEffStructural outs =>
    obtain ⟨b, p, l, heq, hgrown, -⟩ := internEff_eq a none (outs.map (·, none))
    exact ⟨b, _, _, heq, hgrown.nodes, by simp [newEff]⟩
  | ofEffConcrete ext outs =>
    obtain ⟨b, p, l, heq, hgrown, -⟩ := internEff_eq a ext (outs.map (·, none))
    exact ⟨b, _, _, heq, hgrown.nodes, by simp [newEff]⟩
  | ofEffNamed ext slots =>
    obtain ⟨b, p, l, heq, hgrown, -⟩ := internEff_eq a ext slots
    exact ⟨b, _, _, heq, hgrown.nodes, by simp [newEff]⟩
  | ofArchetypeCategory => exact ⟨a, _, _, rfl, rfl, by simp⟩
  | ofFunc params returns => exact ⟨a, _, _, rfl, rfl, by simp⟩
  | ofProc params returns => exact ⟨a, _, _, rfl, rfl, by simp⟩
  | ofMap params => exact ⟨a, _, _, rfl, rfl, by simp⟩
  | ofPolicy params => exact ⟨a, _, _, rfl, rfl, by simp⟩

theorem tyidSumComplete_nominal {a : TypeArena} {sum : TypeId}
    {variants : List (Option String × List TypeId)} {i : Nat} {name : Name} {backing : TypeId}
    (h : (tyidSumComplete a sum variants).nodes[i]? = some (.nominal name backing)) :
    a.nodes[i]? = some (.nominal name backing) := by
  unfold tyidSumComplete at h
  split at h
  · exact h
  · split at h
    · by_cases hi : sum - 1 = i
      · subst hi
        rename_i hnode
        have hlt := (List.getElem?_eq_some_iff.1 hnode).1
        rw [List.getElem?_set_self hlt] at h
        cases h
      · rwa [List.getElem?_set_ne hi] at h
    · exact h

theorem tyidSumComplete_length (a : TypeArena) (sum : TypeId)
    (variants : List (Option String × List TypeId)) :
    (tyidSumComplete a sum variants).nodes.length = a.nodes.length := by
  unfold tyidSumComplete
  split
  · rfl
  · split
    · exact List.length_set
    · rfl

theorem Op.run_length (a : TypeArena) (op : Op) : a.nodes.length ≤ (op.run a).nodes.length := by
  cases op with
  | call c =>
    obtain ⟨b, same, n, heq, hnodes, -⟩ := c.run_eq a
    rw [Op.run, heq, ← hnodes]
    exact (isPrefix_findOrPush same n b.nodes).length_le
  | sumComplete sum variants => exact Nat.le_of_eq (tyidSumComplete_length a sum variants).symm

theorem idAt_le (ops : List Op) {i j : Nat} (hij : i < j) :
    idAt ops i ≤ (after (ops.take j)).nodes.length := by
  induction hij with
  | refl =>
    cases hop : ops[i]? with
    | none => simp [idAt, hop, tyidUnknown]
    | some op =>
      rw [after_take_succ hop]
      cases op with
      | call c =>
        obtain ⟨b, same, n, heq, -⟩ := c.run_eq (after (ops.take i))
        rw [idAt, hop]
        dsimp only
        rw [Op.run, heq]
        obtain ⟨y, hy, -⟩ := findOrPush_entry same n b.nodes
        exact (List.getElem?_eq_some_iff.1 hy).1
      | sumComplete sum variants => simp [idAt, hop, tyidUnknown]
  | @step j _ ih =>
    cases hop : ops[j]? with
    | none =>
      rw [List.take_add_one, hop, Option.toList_none, List.append_nil]
      exact ih
    | some op =>
      rw [after_take_succ hop]
      exact Nat.le_trans ih (op.run_length _)

theorem backingOlder_step {a : TypeArena} (ha : BackingOlder a) {op : Op}
    (hargs : ∀ t ∈ op.idArgs, t ≤ a.nodes.length) : BackingOlder (op.run a) := by
  intro i name backing hi
  cases op with
  | call c =>
    obtain ⟨b, same, n, heq, hnodes, hnew⟩ := c.run_eq a
    rw [Op.run, heq] at hi
    change (findOrPush same n b.nodes).2[i]? = _ at hi
    rw [hnodes] at hi
    unfold findOrPush at hi
    split at hi
    · exact ha i name backing hi
    · by_cases hlt : i < a.nodes.length
      · rw [List.getElem?_append_left hlt] at hi
        exact ha i name backing hi
      · rw [List.getElem?_append_right (by omega), List.getElem?_singleton] at hi
        split at hi
        · obtain rfl | hmem := hnew name backing (Option.some.inj hi)
          · exact Nat.zero_le i
          · exact Nat.le_trans (hargs backing hmem) (Nat.le_of_not_lt hlt)
        · cases hi
  | sumComplete sum variants => exact ha i name backing (tyidSumComplete_nominal hi)

theorem after_backingOlder {ops : List Op} (h : Closed ops) : BackingOlder (after ops) := by
  have hrun : ∀ n ≤ ops.length, BackingOlder (after (ops.take n)) := by
    intro n hn
    induction n with
    | zero => exact nofun
    | succ n ih =>
      have hop : ops[n]? = some ops[n] := List.getElem?_eq_getElem hn
      rw [after_take_succ hop]
      refine backingOlder_step (ih (by omega)) fun t ht => ?_
      obtain rfl | ⟨j, hj, rfl⟩ := h n _ hop t ht
      · exact Nat.zero_le _
      · exact idAt_le ops hj
  have := hrun ops.length (Nat.le_refl _)
  rwa [List.take_length] at this

/-! ## Termination and order -/

theorem tyidBacking_lt {a : TypeArena} (ha : BackingOlder a) {t : TypeId} (ht : t ≠ tyidUnknown) :
    tyidBacking a t < t := by
  have hpos : 0 < t := Nat.pos_of_ne_zero ht
  unfold tyidBacking
  split
  · rename_i name backing hnode
    have hat : a.nodes[t - 1]? = some (.nominal name backing) :=
      (if_neg ht).symm.trans hnode
    exact Nat.lt_of_le_of_lt (ha _ name backing hat) (Nat.sub_lt hpos Nat.one_pos)
  · exact hpos

/-- The loop ends, with the answer of the chain. -/
theorem chainReaches_spec {a : TypeArena} (ha : BackingOlder a) (u : TypeId) {fuel : Nat}
    {t : TypeId} (h : t < fuel) :
    ∃ r, chainReaches a u fuel t = some r ∧ (r = true ↔ BackedBy a t u) := by
  induction fuel generalizing t with
  | zero => cases h
  | succ fuel ih =>
    rw [chainReaches]
    by_cases ht : t = tyidUnknown
    · rw [if_pos ht]
      refine ⟨false, rfl, by simp, ?_⟩
      rintro (hne | ⟨hne, -⟩) <;> exact absurd ht hne
    · rw [if_neg ht]
      by_cases htu : t = u
      · rw [if_pos htu]
        exact ⟨true, rfl, fun _ => htu ▸ .refl ht, fun _ => rfl⟩
      · rw [if_neg htu]
        have hlt := tyidBacking_lt ha ht
        obtain ⟨r, hr, hiff⟩ := ih (Nat.lt_of_lt_of_le hlt (Nat.le_of_lt_succ h))
        refine ⟨r, hr, hiff.trans ⟨.step ht, fun hb => ?_⟩⟩
        cases hb with
        | refl _ => exact absurd rfl htu
        | step _ hb => exact hb

theorem effUsableAs_iff (a : TypeArena) (t u : TypeId) :
    effUsableAs a t u = true ↔ Annotates a t u := by
  simp only [effUsableAs, Bool.and_eq_true, beq_iff_eq, List.all_eq_true, List.mem_range,
    Bool.or_eq_true]
  constructor
  · rintro ⟨⟨⟨⟨hk, hk'⟩, hcount⟩, hslots⟩, hext⟩
    exact ⟨hk, hk', hcount, fun i hi => hslots i (by omega), hext⟩
  · rintro ⟨hk, hk', hcount, hslots, hext⟩
    exact ⟨⟨⟨⟨hk, hk'⟩, hcount⟩, fun i hi => hslots i (by omega)⟩, hext⟩

/-- With as many rounds as the id and one more, the test has its answer. -/
theorem usableAs_ends {a : TypeArena} (ha : BackingOlder a) {fuel : Nat} {t : TypeId} (u : TypeId)
    (h : t < fuel) :
    ∃ r, tyidUsableAs a fuel t u = some r ∧ (r = true ↔ Annotates a t u ∨ BackedBy a t u) := by
  unfold tyidUsableAs
  split
  · rename_i heff
    exact ⟨true, rfl, fun _ => .inl ((effUsableAs_iff a t u).1 heff), fun _ => rfl⟩
  · rename_i heff
    obtain ⟨r, hr, hiff⟩ := chainReaches_spec ha u h
    refine ⟨r, hr, hiff.trans ⟨.inr, ?_⟩⟩
    rintro (hann | hb)
    · exact absurd ((effUsableAs_iff a t u).2 hann) heff
    · exact hb

theorem chainReaches_mono {a : TypeArena} {u t : TypeId} {fuel : Nat} {r : Bool}
    (h : chainReaches a u fuel t = some r) : chainReaches a u (fuel + 1) t = some r := by
  induction fuel generalizing t with
  | zero => cases h
  | succ fuel ih =>
    rw [chainReaches] at h ⊢
    split_ifs at h ⊢
    · exact h
    · exact h
    · exact ih h

theorem usableAs_iff {a : TypeArena} (ha : BackingOlder a) (t u : TypeId) :
    UsableAs a t u ↔ Annotates a t u ∨ BackedBy a t u := by
  constructor
  · rintro ⟨fuel, h⟩
    have hmono : ∀ k, tyidUsableAs a (fuel + k) t u = some true := by
      intro k
      induction k with
      | zero => exact h
      | succ k ih =>
        unfold tyidUsableAs at ih ⊢
        split_ifs at ih ⊢
        · rfl
        · exact chainReaches_mono ih
    obtain ⟨r, hr, hiff⟩ := usableAs_ends ha u (Nat.le_add_left (t + 1) fuel)
    rw [hmono] at hr
    exact hiff.1 (Option.some.inj hr).symm
  · intro h
    obtain ⟨r, hr, hiff⟩ := usableAs_ends ha u (Nat.lt_succ_self t)
    exact ⟨t + 1, hr.trans (congrArg some (hiff.2 h))⟩

section Order

variable {a : TypeArena} {t u v : TypeId}

theorem BackedBy.trans (htu : BackedBy a t u) (huv : BackedBy a u v) : BackedBy a t v := by
  induction htu with
  | refl _ => exact huv
  | step ht _ ih => exact .step ht (ih huv)

theorem Annotates.trans (htu : Annotates a t u) (huv : Annotates a u v) : Annotates a t v where
  kind := htu.kind
  toKind := huv.toKind
  count := htu.count.trans huv.count
  slots i hi := (htu.slots i hi).trans (huv.slots i (htu.count ▸ hi))
  externName := by
    rcases huv.externName with h | h
    · exact .inl h
    · rw [h]
      exact htu.externName

theorem tyidBacking_of_kind (h : tyidKind a t ≠ .nominal) : tyidBacking a t = tyidUnknown := by
  unfold tyidBacking
  split
  · rename_i name backing hnode
    exact absurd (by rw [tyidKind, hnode]; rfl) h
  · rfl

/-- The chain of a type that is no nominal one is this type. -/
theorem BackedBy.eq_of_kind (h : tyidKind a t ≠ .nominal) (hb : BackedBy a t u) : t = u := by
  cases hb with
  | refl _ => rfl
  | step _ hb =>
    rw [tyidBacking_of_kind h] at hb
    cases hb with
    | refl hne => exact absurd rfl hne
    | step hne _ => exact absurd rfl hne

/-- Two types on one chain: one is on the chain of the other. -/
theorem BackedBy.comparable (htu : BackedBy a t u) (htv : BackedBy a t v) :
    BackedBy a u v ∨ BackedBy a v u := by
  induction htu with
  | refl _ => exact .inl htv
  | step ht hb ih =>
    cases htv with
    | refl _ => exact .inr (.step ht hb)
    | step _ htv => exact ih htv

/-- Usable in two steps is usable, unless the first step ends a subtype's chain in an effect type
and the second goes on from it by the effect rule. -/
theorem usableAs_trans_iff (ha : BackingOlder a) (htu : UsableAs a t u) (huv : UsableAs a u v) :
    UsableAs a t v ↔ ¬ (tyidKind a t = .nominal ∧ tyidKind a u = .eff ∧ u ≠ v) := by
  rw [usableAs_iff ha] at htu huv ⊢
  constructor
  · rintro h ⟨ht, hu, hne⟩
    have hnoeff : ∀ w, ¬ Annotates a t w := fun w hann =>
      absurd (ht.symm.trans hann.kind) (by decide)
    have hchain : BackedBy a t v := h.resolve_left (hnoeff v)
    have htail : BackedBy a t u := htu.resolve_left (hnoeff u)
    have hends : tyidKind a u ≠ .nominal := by simp [hu]
    -- The chain of `u` is `u`, so `v` would be a nominal type, and no effect.
    rcases htail.comparable hchain with huv' | hvu
    · exact hne (huv'.eq_of_kind hends)
    · have hv : tyidKind a v ≠ .nominal := by
        rcases huv with hann | hb
        · simp [hann.toKind]
        · exact absurd (hb.eq_of_kind hends) hne
      exact hne (hvu.eq_of_kind hv).symm
  · intro hnot
    rcases htu with hann | hb
    · rcases huv with hann' | hb'
      · exact .inl (hann.trans hann')
      · have hu : tyidKind a u ≠ .nominal := by simp [hann.toKind]
        obtain rfl := hb'.eq_of_kind hu
        exact .inl hann
    · rcases huv with hann' | hb'
      · by_cases hkind : tyidKind a t = .nominal
        · have huv : u = v := by_contra fun hne => hnot ⟨hkind, hann'.kind, hne⟩
          exact .inr (huv ▸ hb)
        · obtain rfl := hb.eq_of_kind hkind
          exact .inl hann'
      · exact .inr (hb.trans hb')

end Order

theorem knownId_of_kind {a : TypeArena} {t : TypeId} (h : tyidKind a t ≠ .unknown) : KnownId a t := by
  unfold KnownId tyidKind at *
  cases hnode : node a t with
  | none => simp [hnode] at h
  | some n => rfl

/-- The types of an arena are preordered exactly if no distinct subtype ends in an effect type that
annotates another one. -/
theorem usable_preorder_iff {ops : List Op} (h : Closed ops) :
    UsablePreorder (after ops) ↔ NoSubtypeOfAnnotated (after ops) := by
  have ha := after_backingOlder h
  constructor
  · intro hpre t u v ht hb hann
    by_contra hne
    have htu : UsableAs (after ops) t u := (usableAs_iff ha t u).2 (.inr hb)
    have huv : UsableAs (after ops) u v := (usableAs_iff ha u v).2 (.inl hann)
    have hknown : ∀ w, tyidKind (after ops) w ≠ .unknown → KnownId (after ops) w :=
      fun w hw => knownId_of_kind hw
    have htv := hpre.trans t u v (hknown t (by simp [ht])) (hknown u (by simp [hann.kind]))
      (hknown v (by simp [hann.toKind])) htu huv
    exact (usableAs_trans_iff ha htu huv).1 htv ⟨ht, hann.kind, hne⟩
  · intro hno
    refine ⟨fun t u => ?_, fun t ht => ?_, fun t u v _ _ _ htu huv => ?_⟩
    · obtain ⟨r, hr, hiff⟩ := usableAs_ends ha u (Nat.lt_succ_self t)
      refine ⟨t + 1, r, fun fuel hfuel => ?_⟩
      obtain ⟨r', hr', hiff'⟩ := usableAs_ends ha u hfuel
      rw [hr', Bool.eq_iff_iff.2 (hiff'.trans hiff.symm)]
    · have hne : t ≠ tyidUnknown := by
        rintro rfl
        exact absurd ht (by simp [KnownId, node, tyidUnknown])
      exact (usableAs_iff ha t t).2 (.inr (.refl hne))
    · rw [usableAs_trans_iff ha htu huv]
      rintro ⟨ht, hu, hne⟩
      rw [usableAs_iff ha] at htu huv
      have hb : BackedBy (after ops) t u := htu.resolve_left fun hann =>
        absurd (ht.symm.trans hann.kind) (by decide)
      rcases huv with hann | hb'
      · exact hne (hno t u v ht hb hann)
      · exact hne (hb'.eq_of_kind (by simp [hu]))

/-- The arena of `Eff(int)`, `Eff(n: int)` and a distinct subtype of the second. -/
def effSubtype : List Op :=
  [.call (.ofPrim .int), .call (.ofEffStructural [1]), .call (.ofEffNamed none [(1, some "n")]),
    .call (.ofNominalSub (some "Reading") 3)]

theorem effSubtype_closed : Closed effSubtype := by
  intro i op hi t ht
  match i, hi with
  | 0, hi =>
    obtain rfl := Option.some.inj hi
    cases ht
  | 1, hi =>
    obtain rfl := Option.some.inj hi
    obtain rfl := List.mem_singleton.1 ht
    exact .inr ⟨0, by decide, by decide⟩
  | 2, hi =>
    obtain rfl := Option.some.inj hi
    obtain rfl := List.mem_singleton.1 ht
    exact .inr ⟨0, by decide, by decide⟩
  | 3, hi =>
    obtain rfl := Option.some.inj hi
    obtain rfl := List.mem_singleton.1 ht
    exact .inr ⟨2, by decide, by decide +kernel⟩

theorem usable_preorder_iff_sample :
    UsablePreorder (after effSubtype) ↔ NoSubtypeOfAnnotated (after effSubtype) :=
  usable_preorder_iff effSubtype_closed

/-- The subtype is usable as `Eff(n: int)`, which is usable as `Eff(int)`, and not as this. -/
theorem not_usable_preorder : ¬ UsablePreorder (after effSubtype) := by
  intro h
  have hsub : UsableAs (after effSubtype) 4 3 := ⟨5, by decide +kernel⟩
  have hann : UsableAs (after effSubtype) 3 2 := ⟨5, by decide +kernel⟩
  have hknown : ∀ t, t - 1 < (after effSubtype).nodes.length → t ≠ 0 →
      KnownId (after effSubtype) t := by
    intro t ht hne
    rw [KnownId, node, if_neg hne, List.getElem?_eq_getElem ht]
    rfl
  have htrans := h.trans 4 3 2 (hknown 4 (by decide +kernel) (by decide))
    (hknown 3 (by decide +kernel) (by decide)) (hknown 2 (by decide +kernel) (by decide)) hsub hann
  exact (usableAs_trans_iff (after_backingOlder effSubtype_closed) hsub hann).1 htrans
    ⟨by decide +kernel, by decide +kernel, by decide⟩

end Arche.Semantic.SemTypes
