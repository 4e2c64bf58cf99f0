import Arche.Codegen.Specialisations
import Arche.Lib.Worklist

/-!
# Each copy is emitted once

Emission is a work list whose keys are the names of a proc and an archetype, or the symbol from
`cb_mangle` (`State.work`). So it ends for every program (`generate_ends`). Nothing that was asked
for is missing, and no symbol is there twice, just in the programs that are `Clean`
(`generate_right_iff`).
-/

namespace Arche.Codegen.Specialisations

open Symbols Lib Relation

variable {P : Program}

/-! ## Emission as a work list -/

section Work

/-- What a copy is known by. -/
def key : Definition → Definition ⊕ Name
  | .special p none bound => .inr (cbMangle p bound)
  | d => .inl d

def monoCopy (m : Name × Name) : Definition := .special m.1 (some m.2) []

def cbCopy (m : Name × List Name) : Definition := .special m.1 none m.2

theorem monoCopy_ne_cbCopy (m : Name × Name) (m' : Name × List Name) : monoCopy m ≠ cbCopy m' := by
  simp [monoCopy, cbCopy]

def State.work (s : State) : Worklist Definition where
  pending := s.monoPending.map monoCopy ++ s.cbPending.map cbCopy
  made := s.copies

/-- The copies that the code of a call asks for. -/
def Program.asked (P : Program) (e : Env) (c : Call) : List Definition :=
  match P.findProcDecl (e.cbResolve c.callee) with
  | some q => (P.monoArch q c.args).toList.map (fun a => monoCopy (q.name, a)) ++
      (e.cbBound q c.args).toList.map fun bound => cbCopy (q.name, bound)
  | none => []

/-- The code of a call stays within `bound`. -/
def Program.Within (P : Program) (e : Env) (c : Call) : Prop :=
  ∀ q bound, P.findProcDecl (e.cbResolve c.callee) = some q → e.cbBound q c.args = some bound →
    ¬ q.manglesPast bound

/-- What is marked as emitted is what has been. -/
structure Tracks (s : State) : Prop where
  mono : ∀ m, m ∈ s.monoEmitted ↔ key (monoCopy m) ∈ s.copies.map key
  cb : ∀ t, t ∈ s.cbEmitted ↔ .inr t ∈ s.copies.map key

/-- `s'` is `s` with more that waits: some of `xs`, such that all of them are known. -/
structure Grows (s s' : State) (xs : List Definition) : Prop where
  copies : s'.copies = s.copies
  tracks : Tracks s'
  waits : s.work.pending ⊆ s'.work.pending
  news : ∀ x ∈ s'.work.pending, x ∈ s.work.pending ∨ x ∈ xs
  known : ∀ x ∈ xs, key x ∈ s'.work.keys key

theorem Grows.refl {s : State} (h : Tracks s) : Grows s s [] where
  copies := rfl
  tracks := h
  waits := List.Subset.refl _
  news _ hx := .inl hx
  known _ hx := absurd hx List.not_mem_nil

theorem Grows.keys {s s' : State} {xs : List Definition} (h : Grows s s' xs) :
    ∀ k ∈ s.work.keys key, k ∈ s'.work.keys key := by
  intro k hk
  obtain ⟨x, hx, rfl⟩ := List.mem_map.mp hk
  refine List.mem_map_of_mem (List.mem_append.mpr ?_)
  rcases List.mem_append.mp hx with hx | hx
  · exact .inl (h.waits hx)
  · exact .inr (show x ∈ s'.copies from h.copies ▸ hx)

theorem Grows.trans {s s' s'' : State} {xs ys : List Definition} (h : Grows s s' xs)
    (h' : Grows s' s'' ys) : Grows s s'' (xs ++ ys) where
  copies := h'.copies.trans h.copies
  tracks := h'.tracks
  waits := List.Subset.trans h.waits h'.waits
  news x hx := by
    rcases h'.news x hx with hx | hx
    · exact (h.news x hx).imp_right (List.mem_append_left _)
    · exact .inr (List.mem_append_right _ hx)
  known x hx := by
    rcases List.mem_append.mp hx with hx | hx
    · exact h'.keys _ (h.known x hx)
    · exact h'.known x hx

theorem mem_keys_of_pending {s : State} {x : Definition} (h : x ∈ s.work.pending) :
    key x ∈ s.work.keys key :=
  List.mem_map_of_mem (List.mem_append_left _ h)

theorem mem_keys_of_copies {s : State} {k : Definition ⊕ Name} (h : k ∈ s.copies.map key) :
    k ∈ s.work.keys key := by
  obtain ⟨x, hx, rfl⟩ := List.mem_map.mp h
  exact List.mem_map_of_mem (List.mem_append_right _ hx)

theorem monomorphEnqueue_grows {s : State} (h : Tracks s) (proc arch : Name) :
    Grows s (s.monomorphEnqueue proc arch) [monoCopy (proc, arch)] := by
  rw [State.monomorphEnqueue]
  split
  · next hknown =>
    refine { Grows.refl h with news := fun x hx => .inl hx, known := fun x hx => ?_ }
    rw [List.mem_singleton.mp hx]
    rcases hknown with hdone | hwaits
    · exact mem_keys_of_copies ((h.mono _).mp hdone)
    · exact mem_keys_of_pending (List.mem_append_left _ (List.mem_map_of_mem hwaits))
  · refine ⟨rfl, ⟨h.mono, h.cb⟩, List.subset_cons_self _ _, fun x hx => ?_, fun x hx => ?_⟩
    · rcases List.mem_cons.mp hx with rfl | hx
      · exact .inr (List.mem_singleton_self _)
      · exact .inl hx
    · rw [List.mem_singleton.mp hx]
      exact mem_keys_of_pending List.mem_cons_self

theorem cbEnqueue_grows {s : State} (h : Tracks s) (proc : Name) (bound : List Name) :
    Grows s (s.cbEnqueue proc bound) [cbCopy (proc, bound)] := by
  rw [State.cbEnqueue]
  split
  · next hknown =>
    refine { Grows.refl h with news := fun x hx => .inl hx, known := fun x hx => ?_ }
    rw [List.mem_singleton.mp hx]
    rcases hknown with hwaits | hdone
    · obtain ⟨m, hm, heq⟩ := List.mem_map.mp hwaits
      have hkey : key (cbCopy m) = key (cbCopy (proc, bound)) := congrArg Sum.inr heq
      exact hkey ▸ mem_keys_of_pending (List.mem_append_right _ (List.mem_map_of_mem hm))
    · exact mem_keys_of_copies ((h.cb _).mp hdone)
  · have hmem : ∀ x, x ∈ s.monoPending.map monoCopy ++ ((proc, bound) :: s.cbPending).map cbCopy ↔
        x = cbCopy (proc, bound) ∨ x ∈ s.work.pending := by
      intro x
      rw [List.map_cons, List.perm_middle.mem_iff, List.mem_cons]
      rfl
    refine ⟨rfl, ⟨h.mono, h.cb⟩, fun x hx => (hmem x).mpr (.inr hx), fun x hx => ?_,
      fun x hx => ?_⟩
    · exact ((hmem x).mp hx).symm.imp_right List.mem_singleton.mpr
    · exact mem_keys_of_pending ((hmem x).mpr (.inl (List.mem_singleton.mp hx)))

theorem askArchetype_grows {s : State} (h : Tracks s) (q : Decl) (args : List Arg) :
    Grows s (P.askArchetype q args s)
      ((P.monoArch q args).toList.map fun a => monoCopy (q.name, a)) := by
  rw [Program.askArchetype]
  split
  · next a harch =>
    rw [harch]
    exact monomorphEnqueue_grows h q.name a
  · next harch =>
    rw [harch]
    exact .refl h

theorem askCallbacks_grows {e : Env} {s s' : State} (h : Tracks s) {q : Decl} {args : List Arg}
    (hs : e.askCallbacks q args s = some s') :
    Grows s s' ((e.cbBound q args).toList.map fun bound => cbCopy (q.name, bound)) := by
  rw [Env.askCallbacks] at hs
  split at hs
  · next bound hbound =>
    rw [hbound]
    split at hs
    · cases hs
    · cases hs
      exact cbEnqueue_grows h q.name bound
  · next hbound =>
    rw [hbound]
    cases hs
    exact .refl h

theorem genCall_grows {e : Env} {s s' : State} (h : Tracks s) {c : Call}
    (hs : P.genCall e s c = some s') : Grows s s' (P.asked e c) := by
  cases hq : P.findProcDecl (e.cbResolve c.callee) with
  | none =>
    simp only [Program.genCall, hq] at hs
    simp only [Program.asked, hq]
    cases hs
    exact .refl h
  | some q =>
    simp only [Program.genCall, hq] at hs
    simp only [Program.asked, hq]
    have harch := askArchetype_grows (P := P) h q c.args
    exact harch.trans (askCallbacks_grows harch.tracks hs)

/-- Steps one after the other, where each knows what it asks for. -/
theorem foldlM_grows {β : Type} {f : State → β → Option State} {asks : β → List Definition}
    (hf : ∀ s b s', Tracks s → f s b = some s' → Grows s s' (asks b)) {l : List β} {s s' : State}
    (h : Tracks s) (hs : l.foldlM f s = some s') : Grows s s' (l.flatMap asks) := by
  induction l generalizing s with
  | nil =>
    cases hs
    exact .refl h
  | cons b l ih =>
    obtain ⟨s₁, hs₁, hs⟩ := Option.bind_eq_some_iff.mp hs
    have hstep := hf s b s₁ h hs₁
    exact hstep.trans (ih hstep.tracks hs)

theorem genBody_grows {e : Env} {calls : List Call} {s s' : State} (h : Tracks s)
    (hs : P.genBody e calls s = some s') : Grows s s' (calls.flatMap (P.asked e)) :=
  foldlM_grows (f := P.genCall e) (fun _ _ _ h hs => genCall_grows h hs) h hs

theorem askCallbacks_eq_none_iff {e : Env} {s : State} {q : Decl} {args : List Arg} :
    e.askCallbacks q args s = none ↔
      ∃ bound, e.cbBound q args = some bound ∧ q.manglesPast bound := by
  rw [Env.askCallbacks]
  split
  · next bound hbound =>
    rw [hbound]
    split
    · next hpast => exact iff_of_true rfl ⟨bound, rfl, hpast⟩
    · next hpast =>
      refine iff_of_false (Option.some_ne_none _) ?_
      rintro ⟨bound', hbound', hpast'⟩
      cases hbound'
      exact hpast hpast'
  · next hbound =>
    refine iff_of_false (Option.some_ne_none _) ?_
    rintro ⟨bound', hbound', -⟩
    cases hbound.symm.trans hbound'

theorem genCall_eq_none_iff {e : Env} {s : State} {c : Call} :
    P.genCall e s c = none ↔ ¬ P.Within e c := by
  rw [Program.genCall, Program.Within]
  split
  · next q hq =>
    rw [askCallbacks_eq_none_iff, hq]
    constructor
    · rintro ⟨bound, hbound, hpast⟩ h
      exact h q bound rfl hbound hpast
    · intro h
      by_contra hnone
      refine h fun q' bound hq' hbound hpast => hnone ⟨bound, ?_, ?_⟩ <;> cases hq' <;> assumption
  · next hq =>
    rw [hq]
    exact iff_of_false (Option.some_ne_none _) fun h => h fun _ _ hq' => by cases hq'

theorem foldlM_eq_none_iff {β : Type} {f : State → β → Option State} {bad : β → Prop}
    (hf : ∀ s b, f s b = none ↔ bad b) {l : List β} {s : State} :
    l.foldlM f s = none ↔ ∃ b ∈ l, bad b := by
  induction l generalizing s with
  | nil =>
    exact iff_of_false (Option.some_ne_none _) fun h => absurd h.choose_spec.1 List.not_mem_nil
  | cons b l ih =>
    rw [List.exists_mem_cons_iff, List.foldlM_cons]
    cases hs : f s b with
    | none => exact iff_of_true rfl (.inl ((hf s b).mp hs))
    | some s₁ =>
      have hgood : ¬ bad b := fun h => Option.some_ne_none s₁ (hs.symm.trans ((hf s b).mpr h))
      exact Iff.trans ih (or_iff_right hgood).symm

theorem genBody_eq_none_iff {e : Env} {calls : List Call} {s : State} :
    P.genBody e calls s = none ↔ ∃ c ∈ calls, ¬ P.Within e c :=
  foldlM_eq_none_iff (f := P.genCall e) fun _ _ => genCall_eq_none_iff

end Work

/-! ## Runs -/

section Runs

variable (P) in
def Program.AsksFor (d x : Definition) : Prop := ∃ c ∈ P.calls d, x ∈ P.asked (P.env d) c

variable (P) in
/-- The copies that definitions emitted as they stand ask for. -/
def Program.First (x : Definition) : Prop := ∃ r ∈ P.plain, P.AsksFor (.plain r.name) x

variable (P) in
def Program.Reached (d : Definition) : Prop :=
  ∃ r ∈ P.plain, ReflTransGen P.AsksFor (.plain r.name) d

variable (P) in
/-- The code of a definition stays within `bound`. -/
structure Program.Defined (d : Definition) : Prop where
  within : ∀ c ∈ P.calls d, P.Within (P.env d) c
  binds : ∀ m, d = cbCopy m → P.bindsPast m = false

variable (P) in
/-- What holds in every state of the loops. -/
structure Valid (s : State) : Prop where
  tracks : Tracks s
  kept : Worklist.Kept key P.AsksFor P.First s.work
  defined : ∀ d ∈ s.copies, P.Defined d

variable (P) in
/-- One turn of a loop. -/
def Turn (s : State) : Option State → Prop
  | some s' => Valid P s' ∧ Worklist.Step key P.AsksFor s.work s'.work
  | none => ∃ d, P.Reached d ∧ ¬ P.Defined d

theorem Program.First.reached {r x : Definition} (h : P.First r)
    (hpath : ReflTransGen P.AsksFor r x) : P.Reached x := by
  obtain ⟨d, hd, hasks⟩ := h
  exact ⟨d, hd, .head hasks hpath⟩

theorem Valid.reached {s : State} (h : Valid P s) {d : Definition}
    (hd : d ∈ s.work.pending ++ s.work.made) : P.Reached d := by
  obtain ⟨r, hr, hpath⟩ := h.kept.asked d hd
  exact hr.reached hpath

/-- A copy is marked, added and its body emitted. -/
theorem emit_turn {s s₁ : State} {d : Definition} (h : Valid P s)
    (hfresh : key d ∉ s.copies.map key)
    (hwaits : s.work.pending.Perm (d :: s₁.work.pending)) (hcopies : s₁.copies = s.copies ++ [d])
    (htracks : Tracks s₁) (hbinds : ∀ m, d = cbCopy m → P.bindsPast m = false) :
    Turn P s (P.genBody (P.env d) (P.calls d) s₁) := by
  have hreached : P.Reached d :=
    h.reached (List.mem_append_left _ (hwaits.mem_iff.mpr List.mem_cons_self))
  cases hs : P.genBody (P.env d) (P.calls d) s₁ with
  | none =>
    obtain ⟨c, hc, hpast⟩ := genBody_eq_none_iff.mp hs
    exact ⟨d, hreached, fun hdef => hpast (hdef.within c hc)⟩
  | some s' =>
    have hgrows := genBody_grows htracks hs
    have hasks : ∀ x, P.AsksFor d x ↔ x ∈ (P.calls d).flatMap (P.asked (P.env d)) := fun x =>
      List.mem_flatMap.symm
    have hstep : Worklist.Step key P.AsksFor s.work s'.work :=
      .make hwaits ⟨hfresh, hgrows.copies.trans hcopies, hgrows.waits,
        fun x hx => (hgrows.news x hx).imp_right (hasks x).mpr,
        fun x hx => hgrows.known x ((hasks x).mp hx)⟩
    refine ⟨⟨hgrows.tracks, h.kept.step hstep, fun x hx => ?_⟩, hstep⟩
    rw [hgrows.copies, hcopies, List.mem_append, List.mem_singleton] at hx
    rcases hx with hx | rfl
    · exact h.defined x hx
    · refine ⟨fun c hc => ?_, hbinds⟩
      by_contra hpast
      exact Option.some_ne_none s' (hs.symm.trans (genBody_eq_none_iff.mpr ⟨c, hc, hpast⟩))

/-- A copy that has been emitted is dropped. -/
theorem drop_turn {s s' : State} {d : Definition} (h : Valid P s) (hdone : key d ∈ s.copies.map key)
    (hwaits : s.work.pending.Perm (d :: s'.work.pending)) (hcopies : s'.copies = s.copies)
    (htracks : Tracks s') : Turn P s (some s') := by
  have hstep : Worklist.Step key P.AsksFor s.work s'.work := .drop hwaits hdone hcopies
  exact ⟨⟨htracks, h.kept.step hstep, fun x hx => h.defined x (hcopies ▸ hx)⟩, hstep⟩

theorem mem_map_key_append (copies : List Definition) (d : Definition) (k : Definition ⊕ Name) :
    k ∈ (copies ++ [d]).map key ↔ k = key d ∨ k ∈ copies.map key := by
  rw [List.map_append, List.mem_append, List.map_singleton, List.mem_singleton, or_comm]

theorem emitMono_turn {s : State} {m : Name × Name} {rest : List (Name × Name)} (h : Valid P s)
    (hs : s.monoPending = m :: rest) :
    Turn P s (P.emitMono m { s with monoPending := rest }) := by
  have hwaits : s.work.pending.Perm
      (monoCopy m :: (rest.map monoCopy ++ s.cbPending.map cbCopy)) := by
    rw [State.work, hs]
    exact .refl _
  rw [Program.emitMono]
  split
  · next hdone =>
    exact drop_turn h ((h.tracks.mono m).mp hdone) hwaits rfl ⟨h.tracks.mono, h.tracks.cb⟩
  · next hfresh =>
    refine emit_turn (d := monoCopy m) h (fun hk => hfresh ((h.tracks.mono m).mpr hk)) hwaits rfl
      ⟨fun m' => ?_, fun t => ?_⟩ fun m' hm' => absurd hm' (monoCopy_ne_cbCopy m m')
    · rw [mem_map_key_append, List.mem_cons, h.tracks.mono m']
      refine or_congr_left ⟨fun heq => heq ▸ rfl, fun heq => ?_⟩
      obtain ⟨p, a⟩ := m
      obtain ⟨p', a'⟩ := m'
      cases heq
      rfl
    · rw [mem_map_key_append, h.tracks.cb t]
      exact (or_iff_right fun heq => by cases heq).symm

theorem emitCallback_turn {s : State} {m : Name × List Name} {rest : List (Name × List Name)}
    (h : Valid P s) (hs : s.cbPending = m :: rest) :
    Turn P s (P.emitCallback m { s with cbPending := rest }) := by
  have hwaits : s.work.pending.Perm
      (cbCopy m :: (s.monoPending.map monoCopy ++ rest.map cbCopy)) := by
    rw [State.work, hs]
    exact List.perm_middle
  rw [Program.emitCallback]
  split
  · next hdone =>
    exact drop_turn (d := cbCopy m) h ((h.tracks.cb _).mp hdone) hwaits rfl
      ⟨h.tracks.mono, h.tracks.cb⟩
  · next hfresh =>
    split
    · next hpast =>
      refine ⟨cbCopy m, h.reached (List.mem_append_left _ (hwaits.mem_iff.mpr List.mem_cons_self)),
        fun hdef => ?_⟩
      exact Bool.false_ne_true ((hdef.binds m rfl).symm.trans hpast)
    · next hwithin =>
      refine emit_turn (d := cbCopy m) h (fun hk => hfresh ((h.tracks.cb _).mpr hk)) hwaits rfl
        ⟨fun m' => ?_, fun t => ?_⟩ fun m' hm' => ?_
      · rw [mem_map_key_append, h.tracks.mono m']
        exact (or_iff_right fun heq => by cases heq).symm
      · rw [mem_map_key_append, List.mem_cons, h.tracks.cb t]
        exact or_congr_left ⟨fun heq => congrArg Sum.inr heq, fun heq => Sum.inr.inj heq⟩
      · obtain ⟨p, bound⟩ := m
        obtain ⟨p', bound'⟩ := m'
        cases hm'
        exact Bool.not_eq_true _ ▸ hwithin

variable (P) in
/-- What the loops may come to. -/
def Fine : Outcome → Prop
  | .running => True
  | .undefined => ∃ d, P.Reached d ∧ ¬ P.Defined d
  | .done s => Valid P s ∧ s.work.pending = []

theorem drain_fine (fuel : Nat) (phase : Bool) {s : State} (h : Valid P s) :
    Fine P (P.drain fuel phase s) := by
  induction fuel generalizing phase s with
  | zero => exact trivial
  | succ fuel ih =>
    cases phase with
    | false =>
      rw [Program.drain]
      split
      · next m rest hs =>
        have hturn := emitMono_turn h hs
        split
        · next s' hs' =>
          rw [hs'] at hturn
          exact ih false hturn.1
        · next hs' =>
          rw [hs'] at hturn
          exact hturn
      · exact ih true h
    | true =>
      rw [Program.drain]
      split
      · next m rest hs =>
        have hturn := emitCallback_turn h hs
        split
        · next s' hs' =>
          rw [hs'] at hturn
          exact ih true hturn.1
        · next hs' =>
          rw [hs'] at hturn
          exact hturn
      · next hcb =>
        split
        · next hmono =>
          refine ⟨h, ?_⟩
          rw [State.work, hmono, hcb]
          rfl
        · exact ih false h

end Runs

/-! ## The end of a run -/

section Ends

def Arg.name? : Arg → Option Name
  | .name n => some n
  | .other => none

variable (P) in
/-- All names that calls pass. -/
def Program.argNames : List Name :=
  P.decls.flatMap fun d => d.calls.flatMap fun c => c.args.filterMap Arg.name?

variable (P) in
/-- The copies there can be. -/
def Program.copies : List Definition :=
  (P.decls.map Decl.name).flatMap fun p =>
    (P.archetypes.map fun a => monoCopy (p, a.2)) ++
      (listsUpTo P.argNames 8).map fun bound => cbCopy (p, bound)

theorem findProcDecl_some {n : Name} {q : Decl} (h : P.findProcDecl n = some q) :
    q ∈ P.decls ∧ q.kind = .proc ∧ q.name = n := by
  have hq := List.find?_some h
  rw [Bool.and_eq_true, decide_eq_true_iff, decide_eq_true_iff] at hq
  exact ⟨List.mem_of_find?_eq_some h, hq⟩

theorem findProcDecl_name {n : Name} {q : Decl} (h : P.findProcDecl n = some q) :
    P.findProcDecl q.name = some q := by
  rwa [(findProcDecl_some h).2.2]

theorem bound_spec {e : Env} {ps : List Param} {args : List Arg} {bound : List Name}
    (h : e.bound ps args = some bound) :
    bound.length ≤ ps.length ∧ ∀ b ∈ bound, ∃ n, Arg.name n ∈ args ∧ b = e.cbResolve n := by
  induction ps generalizing args bound with
  | nil =>
    cases h
    exact ⟨Nat.le_refl _, fun _ hb => absurd hb List.not_mem_nil⟩
  | cons p ps ih =>
    have htail : ∀ {n : Name}, Arg.name n ∈ args.tail → Arg.name n ∈ args := List.mem_of_mem_tail
    rw [Env.bound] at h
    split at h
    · split at h
      · next n hn =>
        obtain ⟨rest, hrest, rfl⟩ := Option.map_eq_some_iff.mp h
        obtain ⟨hlen, hnames⟩ := ih hrest
        refine ⟨Nat.succ_le_succ hlen, fun b hb => ?_⟩
        rcases List.mem_cons.mp hb with rfl | hb
        · exact ⟨n, List.mem_of_mem_head? hn, rfl⟩
        · obtain ⟨n, hn, heq⟩ := hnames b hb
          exact ⟨n, htail hn, heq⟩
      · cases h
    · obtain ⟨hlen, hnames⟩ := ih h
      refine ⟨Nat.le_succ_of_le hlen, fun b hb => ?_⟩
      obtain ⟨n, hn, heq⟩ := hnames b hb
      exact ⟨n, htail hn, heq⟩

theorem cbResolve_mem (e : Env) (n : Name) :
    e.cbResolve n = n ∨ e.cbResolve n ∈ e.callbacks.map Prod.snd := by
  rw [Env.cbResolve]
  cases h : e.callbacks.lookup n with
  | none => exact .inl rfl
  | some b =>
    obtain ⟨l, r, heq, -⟩ := List.lookup_eq_some_iff.mp h
    rw [heq]
    exact .inr (by simp)

/-- The names bound by a definition are passed somewhere. -/
def Program.Names (P : Program) : Definition → Prop
  | .plain _ => True
  | .special _ _ bound => bound ⊆ P.argNames

theorem Program.Names.env {d : Definition} (h : P.Names d) :
    (P.env d).callbacks.map Prod.snd ⊆ P.argNames := by
  cases d with
  | plain n => exact List.nil_subset _
  | special p arch bound =>
    rw [Program.env]
    cases P.findProcDecl p with
    | none => exact List.nil_subset _
    | some q =>
      intro b hb
      obtain ⟨pair, hpair, rfl⟩ := List.mem_map.mp hb
      exact h (List.of_mem_zip hpair).2

theorem calls_mem {d : Definition} {c : Call} (h : c ∈ P.calls d) :
    ∃ q ∈ P.decls, c ∈ q.calls := by
  cases d with
  | plain n =>
    obtain ⟨q, hq, hc⟩ := List.mem_flatMap.mp h
    exact ⟨q, List.mem_of_mem_filter (List.mem_of_mem_filter hq), hc⟩
  | special p arch bound =>
    rw [Program.calls] at h
    cases hq : P.findProcDecl p with
    | none =>
      rw [hq] at h
      exact absurd h List.not_mem_nil
    | some q =>
      rw [hq] at h
      exact ⟨q, (findProcDecl_some hq).1, h⟩

theorem mem_argNames {q : Decl} (hq : q ∈ P.decls) {c : Call} (hc : c ∈ q.calls) {n : Name}
    (hn : Arg.name n ∈ c.args) : n ∈ P.argNames :=
  List.mem_flatMap.mpr ⟨q, hq, List.mem_flatMap.mpr ⟨c, hc, List.mem_filterMap.mpr ⟨_, hn, rfl⟩⟩⟩

theorem cbBound_some {e : Env} {q : Decl} {args : List Arg} {bound : List Name}
    (h : e.cbBound q args = some bound) :
    q.hasCallbackParam = true ∧ e.bound (q.params.take 8) args = some bound := by
  rw [Env.cbBound] at h
  split at h
  · next hcb => exact ⟨hcb, h⟩
  · cases h

theorem monoArch_some {q : Decl} {args : List Arg} {a : Name} (h : P.monoArch q args = some a) :
    ∃ n, q.archetypeArg args = some n ∧ P.findArchetypeDecl n = some a :=
  Option.bind_eq_some_iff.mp h

/-- What may be asked for. -/
theorem mem_asked {e : Env} {c : Call} {x : Definition} (h : x ∈ P.asked e c) :
    ∃ q, P.findProcDecl (e.cbResolve c.callee) = some q ∧
      ((∃ a, P.monoArch q c.args = some a ∧ x = monoCopy (q.name, a)) ∨
        ∃ bound, e.cbBound q c.args = some bound ∧ x = cbCopy (q.name, bound)) := by
  rw [Program.asked] at h
  split at h
  · next q hq =>
    refine ⟨q, hq, ?_⟩
    rcases List.mem_append.mp h with h | h
    · obtain ⟨a, ha, heq⟩ := List.mem_map.mp h
      exact .inl ⟨a, Option.mem_toList.mp ha, heq.symm⟩
    · obtain ⟨bound, hbound, heq⟩ := List.mem_map.mp h
      exact .inr ⟨bound, Option.mem_toList.mp hbound, heq.symm⟩
  · exact absurd h List.not_mem_nil

theorem AsksFor.mem_copies {d x : Definition} (hd : P.Names d) (h : P.AsksFor d x) :
    x ∈ P.copies ∧ P.Names x := by
  obtain ⟨c, hc, hx⟩ := h
  obtain ⟨d', hd', hc'⟩ := calls_mem hc
  obtain ⟨q, hq, hcopy⟩ := mem_asked hx
  have hname : q.name ∈ P.decls.map Decl.name := List.mem_map_of_mem (findProcDecl_some hq).1
  rcases hcopy with ⟨a, ha, rfl⟩ | ⟨bound, hbound, rfl⟩
  · obtain ⟨n, -, ha⟩ := monoArch_some ha
    obtain ⟨l, r, heq, -⟩ := List.lookup_eq_some_iff.mp ha
    have hpair : (n, a) ∈ P.archetypes := heq ▸ List.mem_append_right _ List.mem_cons_self
    exact ⟨List.mem_flatMap.mpr ⟨q.name, hname, List.mem_append_left _
      (List.mem_map.mpr ⟨(n, a), hpair, rfl⟩)⟩, List.nil_subset _⟩
  · obtain ⟨hlen, hnames⟩ := bound_spec (cbBound_some hbound).2
    have hsub : bound ⊆ P.argNames := by
      intro b hb
      obtain ⟨n, hn, heq⟩ := hnames b hb
      rw [heq]
      rcases cbResolve_mem (P.env d) n with heq | hmem
      · rw [heq]
        exact mem_argNames hd' hc' hn
      · exact hd.env hmem
    have hlen : bound.length ≤ 8 := Nat.le_trans hlen (List.length_take_le 8 _)
    exact ⟨List.mem_flatMap.mpr ⟨q.name, hname, List.mem_append_right _
      (List.mem_map_of_mem (mem_listsUpTo hlen hsub))⟩, hsub⟩

theorem First.mem_copies {r x : Definition} (h : P.First r) (hpath : ReflTransGen P.AsksFor r x) :
    x ∈ P.copies ∧ P.Names x := by
  induction hpath with
  | refl =>
    obtain ⟨d, -, hasks⟩ := h
    exact AsksFor.mem_copies (d := .plain d.name) trivial hasks
  | tail _ hasks ih => exact AsksFor.mem_copies ih.2 hasks

variable (P) in
/-- There is fuel to come to an end. -/
def Halts (s : State) (phase : Bool) : Prop := ∃ fuel, P.drain fuel phase s ≠ .running

theorem halts_of_mono {s : State} {m : Name × Name} {rest : List (Name × Name)}
    (hs : s.monoPending = m :: rest)
    (h : ∀ s', P.emitMono m { s with monoPending := rest } = some s' → Halts P s' false) :
    Halts P s false := by
  cases hs' : P.emitMono m { s with monoPending := rest } with
  | none => exact ⟨1, by simp only [Program.drain, hs, hs', ne_eq, reduceCtorEq, not_false_eq_true]⟩
  | some s' =>
    obtain ⟨fuel, hfuel⟩ := h s' hs'
    exact ⟨fuel + 1, by simpa only [Program.drain, hs, hs'] using hfuel⟩

theorem halts_of_callback {s : State} {m : Name × List Name} {rest : List (Name × List Name)}
    (hs : s.cbPending = m :: rest)
    (h : ∀ s', P.emitCallback m { s with cbPending := rest } = some s' → Halts P s' true) :
    Halts P s true := by
  cases hs' : P.emitCallback m { s with cbPending := rest } with
  | none => exact ⟨1, by simp only [Program.drain, hs, hs', ne_eq, reduceCtorEq, not_false_eq_true]⟩
  | some s' =>
    obtain ⟨fuel, hfuel⟩ := h s' hs'
    exact ⟨fuel + 1, by simpa only [Program.drain, hs, hs'] using hfuel⟩

/-- Each loop gives way to the other when its list is empty. -/
theorem halts_of_turns {s : State}
    (hmono : ∀ m rest, s.monoPending = m :: rest → Halts P s false)
    (hcb : ∀ m rest, s.cbPending = m :: rest → Halts P s true) (phase : Bool) :
    Halts P s phase := by
  have hboth : Halts P s true → Halts P s false := by
    intro h
    cases hs : s.monoPending with
    | cons m rest => exact hmono m rest hs
    | nil =>
      obtain ⟨fuel, hfuel⟩ := h
      exact ⟨fuel + 1, by simpa only [Program.drain, hs] using hfuel⟩
  have htrue : Halts P s true := by
    cases hs : s.cbPending with
    | cons m rest => exact hcb m rest hs
    | nil =>
      cases hs' : s.monoPending with
      | nil => exact ⟨1, by simp [Program.drain, hs, hs']⟩
      | cons m rest =>
        obtain ⟨fuel, hfuel⟩ := hmono m rest hs'
        exact ⟨fuel + 1, by simpa [Program.drain, hs, hs'] using hfuel⟩
  cases phase with
  | true => exact htrue
  | false => exact hboth htrue

theorem drain_ends {s : State} (h : Valid P s) (phase : Bool) : Halts P s phase := by
  suffices hsuff : ∀ s', s'.work = s.work → Valid P s' → ∀ phase, Halts P s' phase from
    hsuff s rfl h phase
  refine h.kept.ends P.copies (fun r d hr hpath => (First.mem_copies hr hpath).1)
    (fun w => ∀ s', s'.work = w → Valid P s' → ∀ phase, Halts P s' phase) ?_
  rintro w - hends s rfl h phase
  refine halts_of_turns (fun m rest hs => halts_of_mono hs fun s' hs' => ?_)
    (fun m rest hs => halts_of_callback hs fun s' hs' => ?_) phase
  · have hturn := emitMono_turn h hs
    rw [hs'] at hturn
    exact hends s'.work hturn.2 s' rfl hturn.1 false
  · have hturn := emitCallback_turn h hs
    rw [hs'] at hturn
    exact hends s'.work hturn.2 s' rfl hturn.1 true

end Ends

/-! ## The definitions that are emitted as they stand -/

section Plain

theorem mem_calls_plain {n : Name} {c : Call} :
    c ∈ P.calls (.plain n) ↔ ∃ d ∈ P.plain, d.name = n ∧ c ∈ d.calls := by
  rw [Program.calls, List.mem_flatMap]
  simp only [List.mem_filter, decide_eq_true_eq, and_assoc]

theorem first_iff {x : Definition} :
    P.First x ↔ ∃ d ∈ P.plain, ∃ c ∈ d.calls, x ∈ P.asked .empty c := by
  constructor
  · rintro ⟨r, -, c, hc, hx⟩
    obtain ⟨d, hd, -, hc⟩ := mem_calls_plain.mp hc
    exact ⟨d, hd, c, hc, hx⟩
  · rintro ⟨d, hd, c, hc, hx⟩
    exact ⟨d, hd, c, mem_calls_plain.mpr ⟨d, hd, rfl, hc⟩, hx⟩

theorem tracks_empty : Tracks .empty where
  mono _ := iff_of_false List.not_mem_nil List.not_mem_nil
  cb _ := iff_of_false List.not_mem_nil List.not_mem_nil

theorem emitPlain_grows {s : State} (hs : P.emitPlain = some s) :
    Grows .empty s (P.plain.flatMap fun d => d.calls.flatMap (P.asked .empty)) :=
  foldlM_grows (f := fun s (d : Decl) => P.genBody .empty d.calls s)
    (fun _ _ _ h hs => genBody_grows h hs) tracks_empty hs

theorem emitPlain_eq_none_iff :
    P.emitPlain = none ↔ ∃ d ∈ P.plain, ∃ c ∈ d.calls, ¬ P.Within .empty c :=
  foldlM_eq_none_iff (f := fun s (d : Decl) => P.genBody .empty d.calls s)
    fun _ _ => genBody_eq_none_iff

theorem emitPlain_valid {s : State} (hs : P.emitPlain = some s) :
    Valid P s ∧ ∀ d ∈ P.plain, P.Defined (.plain d.name) := by
  have hgrows := emitPlain_grows hs
  have hasked : ∀ x, x ∈ P.plain.flatMap (fun d => d.calls.flatMap (P.asked .empty)) ↔
      P.First x := by
    intro x
    rw [first_iff, List.mem_flatMap]
    simp only [List.mem_flatMap]
  have hcopies : s.copies = [] := hgrows.copies
  have hwork : s.work = ⟨s.work.pending, []⟩ := by
    rw [State.work, hcopies]
  refine ⟨⟨hgrows.tracks, ?_, fun d hd => ?_⟩, fun d hd => ⟨fun c hc => ?_, fun m hm => ?_⟩⟩
  · rw [hwork]
    refine Worklist.kept_start (fun x hx => ?_) fun r hr => ?_
    · exact (hasked x).mp ((hgrows.news x hx).resolve_left List.not_mem_nil)
    · have hkey := hgrows.known r ((hasked r).mpr hr)
      rwa [Worklist.keys, hwork, List.append_nil] at hkey
  · rw [hcopies] at hd
    exact absurd hd List.not_mem_nil
  · obtain ⟨d', hd', -, hc⟩ := mem_calls_plain.mp hc
    by_contra hpast
    exact Option.some_ne_none s
      (hs.symm.trans (emitPlain_eq_none_iff.mpr ⟨d', hd', c, hc, hpast⟩))
  · cases hm

theorem emitPlain_none (hs : P.emitPlain = none) : ∃ d, P.Reached d ∧ ¬ P.Defined d := by
  obtain ⟨d, hd, c, hc, hpast⟩ := emitPlain_eq_none_iff.mp hs
  exact ⟨.plain d.name, ⟨d, hd, .refl⟩,
    fun hdef => hpast (hdef.within c (mem_calls_plain.mpr ⟨d, hd, rfl, hc⟩))⟩

end Plain

/-! ## The whole emission -/

section Generate

/-- What waits is emitted in finitely many turns, or the code reads past `bound`. -/
theorem generate_ends (P : Program) : ∃ fuel, P.generate fuel ≠ .running := by
  cases hs : P.emitPlain with
  | none => exact ⟨0, by simp only [Program.generate, hs, ne_eq, reduceCtorEq, not_false_eq_true]⟩
  | some s =>
    obtain ⟨fuel, hfuel⟩ := drain_ends (emitPlain_valid hs).1 false
    exact ⟨fuel, by simpa only [Program.generate, hs] using hfuel⟩

theorem generate_done {fuel : Nat} {s : State} (h : P.generate fuel = .done s) :
    Valid P s ∧ s.work.pending = [] ∧ ∀ d ∈ P.plain, P.Defined (.plain d.name) := by
  rw [Program.generate] at h
  split at h
  · next s₀ hs =>
    obtain ⟨hvalid, hplain⟩ := emitPlain_valid hs
    have hfine := drain_fine fuel false hvalid
    rw [h] at hfine
    exact ⟨hfine.1, hfine.2, hplain⟩
  · cases h

theorem generate_undefined {fuel : Nat} (h : P.generate fuel = .undefined) :
    ∃ d, P.Reached d ∧ ¬ P.Defined d := by
  rw [Program.generate] at h
  split at h
  · next s₀ hs =>
    have hfine := drain_fine fuel false (emitPlain_valid hs).1
    rwa [h] at hfine
  · next hs => exact emitPlain_none hs

end Generate

/-! ## Calls that are handled -/

section Calls

variable {e : Env} {q : Decl} {args : List Arg}

theorem bound_of_no_callback {ps : List Param} (h : ∀ p ∈ ps, p.kind ≠ .callback) :
    e.bound ps args = some [] := by
  induction ps generalizing args with
  | nil => rfl
  | cons p ps ih =>
    rw [List.forall_mem_cons] at h
    rw [Env.bound, if_neg h.1, ih h.2]

theorem no_callback_of_bound {ps : List Param} (h : e.bound ps args = some []) :
    ∀ p ∈ ps, p.kind ≠ .callback := by
  induction ps generalizing args with
  | nil => exact List.forall_mem_nil _
  | cons p ps ih =>
    rw [Env.bound] at h
    split at h
    · split at h
      · obtain ⟨rest, -, hrest⟩ := Option.map_eq_some_iff.mp h
        cases hrest
      · cases h
    · next hkind => exact List.forall_mem_cons.mpr ⟨hkind, ih h⟩

theorem bound_append (e : Env) (ps qs : List Param) (args : List Arg) :
    e.bound (ps ++ qs) args = (e.bound ps args).bind fun bound =>
      (e.bound qs (args.drop ps.length)).map (bound ++ ·) := by
  induction ps generalizing args with
  | nil => simp [Env.bound]
  | cons p ps ih =>
    rw [List.cons_append, Env.bound, Env.bound, List.length_cons, ← List.drop_tail]
    split
    · split
      · rw [ih]
        cases e.bound ps args.tail <;> simp [Function.comp_def]
      · rfl
    · exact ih _

/-- The first eight parameters bind what all do, where none of the others is for a callback. -/
theorem bound_take {bound : List Name} :
    (e.bound q.params args = some bound ∧ ∀ p ∈ q.params.drop 8, p.kind ≠ .callback) ↔
      e.bound q.params args = some bound ∧ e.bound (q.params.take 8) args = some bound := by
  have happend := bound_append e (q.params.take 8) (q.params.drop 8) args
  rw [List.take_append_drop] at happend
  refine and_congr_right fun hbound => ?_
  rw [happend] at hbound
  obtain ⟨first, hfirst, hrest⟩ := Option.bind_eq_some_iff.mp hbound
  obtain ⟨rest, hrest, heq⟩ := Option.map_eq_some_iff.mp hrest
  rw [hfirst, ← heq, Option.some.injEq, List.self_eq_append_right]
  constructor
  · intro h
    exact Option.some.inj (hrest.symm.trans (bound_of_no_callback h))
  · rintro rfl
    exact no_callback_of_bound hrest

theorem index_of_archetypeArg {n : Name} (h : q.archetypeArg args = some n) :
    q.archetypeParamIndex.isSome := by
  rw [Decl.archetypeArg] at h
  cases hidx : q.archetypeParamIndex with
  | none =>
    rw [hidx] at h
    cases h
  | some i => rfl

theorem hasCallbackParam_eq_false :
    q.hasCallbackParam = false ↔ ∀ p ∈ q.params, p.kind ≠ .callback := by
  rw [Decl.hasCallbackParam, List.any_eq_false]
  simp only [decide_eq_true_eq]

/-- What code generation does for a call that it handles. -/
structure Serves (P : Program) (e : Env) (q : Decl) (c : Call) (x : Definition) : Prop where
  needs : e.needs P q c.args = some x
  target : P.target e c = x
  asked : P.asked e c = [x]
  within : P.Within e c
  binds : ∀ m, x = cbCopy m → P.bindsPast m = false

theorem Handled.serves {c : Call} (hq : P.findProcDecl (e.cbResolve c.callee) = some q)
    (h : Handled P e q c.args) : ∃ x, Serves P e q c x := by
  cases h with
  | @archetype n a hcb harg harch hown =>
    have hnone : e.cbBound q c.args = none := if_neg (hcb ▸ Bool.false_ne_true)
    have hmono : P.monoArch q c.args = some a := by
      rw [Program.monoArch, harg]
      exact harch
    have hstands : e.archetype P n = some a := by
      rw [Env.archetype]
      split
      · next own b hb =>
        split
        · next heq => exact congrArg some (hown b (heq ▸ hb))
        · exact harch
      · exact harch
    refine ⟨monoCopy (q.name, a), ?_, ?_, ?_, fun q' bound hq' hbound => ?_, fun m hm => ?_⟩
    · rw [Env.needs, Env.neededArch, if_pos (index_of_archetypeArg harg), harg, Option.bind_some,
        hstands, bound_of_no_callback (hasCallbackParam_eq_false.mp hcb)]
      rfl
    · simp only [Program.target, hq, hnone, hmono]
      rfl
    · simp only [Program.asked, hq, hnone, hmono]
      rfl
    · cases hq.symm.trans hq'
      cases hnone.symm.trans hbound
    · exact absurd hm (monoCopy_ne_cbCopy _ m)
  | @callbacks bound hidx hcb hbound hdrop hpast =>
    have hsome : e.cbBound q c.args = some bound := by
      rw [Env.cbBound, if_pos hcb]
      exact (bound_take.mp ⟨hbound, hdrop⟩).2
    have hmono : P.monoArch q c.args = none := by
      rw [Program.monoArch, Decl.archetypeArg, hidx]
      rfl
    refine ⟨cbCopy (q.name, bound), ?_, ?_, ?_, fun q' bound' hq' hbound' => ?_, fun m hm => ?_⟩
    · rw [Env.needs, Env.neededArch, hidx, hbound]
      rfl
    · simp only [Program.target, hq, hsome]
      rfl
    · simp only [Program.asked, hq, hsome, hmono]
      rfl
    · cases hq.symm.trans hq'
      cases hsome.symm.trans hbound'
      exact hpast
    · obtain ⟨p, bound'⟩ := m
      cases hm
      have hname : P.findProcDecl q.name = some q := findProcDecl_name hq
      rw [Program.bindsPast, hname, Option.any_some, decide_eq_false_iff_not]
      rintro ⟨⟨p, hp, hkind⟩, -⟩
      exact hdrop p hp hkind

/-- A call that goes to the copy it needs is handled. -/
theorem handled_of_target {c : Call} {x : Definition}
    (hq : P.findProcDecl (e.cbResolve c.callee) = some q) (hparam : q.isParametric = true)
    (hneeds : e.needs P q c.args = some x) (htarget : P.target e c = x) (hwithin : P.Within e c) :
    Handled P e q c.args := by
  obtain ⟨arch, harch, hneeds⟩ := Option.bind_eq_some_iff.mp hneeds
  obtain ⟨bound, hbound, rfl⟩ := Option.map_eq_some_iff.mp hneeds
  simp only [Program.target, hq] at htarget
  rw [Env.neededArch] at harch
  cases hidx : q.archetypeParamIndex with
  | none =>
    rw [hidx, Option.isSome_none, if_neg Bool.false_ne_true] at harch
    cases harch
    have hcb : q.hasCallbackParam = true := by
      rw [Decl.isParametric, hidx, Option.isSome_none, Bool.false_or, Bool.and_eq_true] at hparam
      exact hparam.2
    cases hsome : e.cbBound q c.args with
    | none =>
      rw [hsome] at htarget
      have hmono : P.monoArch q c.args = none := by
        rw [Program.monoArch, Decl.archetypeArg, hidx]
        rfl
      rw [hmono] at htarget
      cases htarget
    | some first =>
      rw [hsome] at htarget
      obtain rfl : first = bound := by
        cases htarget
        rfl
      have htake := bound_take.mpr ⟨hbound, (cbBound_some hsome).2⟩
      exact .callbacks hidx hcb hbound htake.2 (hwithin q first hq hsome)
  | some i =>
    rw [hidx, Option.isSome_some, if_pos rfl] at harch
    obtain ⟨a, ha, rfl⟩ := Option.map_eq_some_iff.mp harch
    obtain ⟨n, harg, hstands⟩ := Option.bind_eq_some_iff.mp ha
    cases hsome : e.cbBound q c.args with
    | some first =>
      rw [hsome] at htarget
      cases htarget
    | none =>
      rw [hsome] at htarget
      cases hmono : P.monoArch q c.args with
      | none =>
        rw [hmono] at htarget
        cases htarget
      | some b =>
        rw [hmono] at htarget
        obtain ⟨rfl, rfl⟩ : b = a ∧ [] = bound := by
          cases htarget
          exact ⟨rfl, rfl⟩
        obtain ⟨n', harg', hfind⟩ := monoArch_some hmono
        cases harg.symm.trans harg'
        refine .archetype ?_ harg hfind fun b' hown => ?_
        · exact hasCallbackParam_eq_false.mpr (no_callback_of_bound hbound)
        · rw [Env.archetype, hown] at hstands
          exact Option.some.inj ((if_pos rfl).symm.trans hstands)

end Calls

/-! ## When no symbol stands for two definitions -/

section Clean

theorem asks_of_findProcDecl {d : Definition} {c : Call} {q : Decl} (hc : c ∈ P.calls d)
    (hq : P.findProcDecl ((P.env d).cbResolve c.callee) = some q) {x : Definition}
    (hx : x ∈ P.asked (P.env d) c) : Asks P d c q := by
  refine ⟨hc, hq, ?_⟩
  obtain ⟨q', hq', hcopy⟩ := mem_asked hx
  cases hq.symm.trans hq'
  rw [Decl.isParametric, Bool.and_eq_true, Bool.or_eq_true, decide_eq_true_iff]
  refine ⟨(findProcDecl_some hq).2.1, ?_⟩
  rcases hcopy with ⟨a, ha, -⟩ | ⟨bound, hbound, -⟩
  · obtain ⟨n, harg, -⟩ := monoArch_some ha
    exact .inl (index_of_archetypeArg harg)
  · exact .inr (cbBound_some hbound).1

theorem Clean.needed_of_asksFor (h : Clean P) {d x : Definition} (hd : Needed P d)
    (hasks : P.AsksFor d x) : Needed P x := by
  obtain ⟨c, hc, hx⟩ := hasks
  obtain ⟨q, hq, -⟩ := mem_asked hx
  have hcall := asks_of_findProcDecl hc hq hx
  obtain ⟨y, hserves⟩ := (h.handled d hd c q hcall).serves hq
  rw [hserves.asked, List.mem_singleton] at hx
  exact .copy hd hcall (hx ▸ hserves.needs)

theorem Clean.needed_of_reached (h : Clean P) {d : Definition} (hd : P.Reached d) : Needed P d := by
  obtain ⟨r, hr, hpath⟩ := hd
  induction hpath with
  | refl => exact .plain hr
  | tail _ hasks ih => exact h.needed_of_asksFor ih hasks

theorem Clean.within (h : Clean P) {d : Definition} (hd : Needed P d) :
    ∀ c ∈ P.calls d, P.Within (P.env d) c := by
  intro c hc q bound hq hbound
  have hx : cbCopy (q.name, bound) ∈ P.asked (P.env d) c := by
    simp only [Program.asked, hq, hbound]
    exact List.mem_append_right _ (List.mem_singleton_self _)
  obtain ⟨y, hserves⟩ := (h.handled d hd c q (asks_of_findProcDecl hc hq hx)).serves hq
  exact hserves.within q bound hq hbound

theorem Clean.defined (h : Clean P) {d : Definition} (hd : Needed P d) : P.Defined d := by
  refine ⟨h.within hd, fun m hm => ?_⟩
  cases hd with
  | plain => cases hm
  | copy hd hcall hneeds =>
    obtain ⟨y, hserves⟩ := (h.handled _ hd _ _ hcall).serves hcall.callee
    exact hserves.binds m ((Option.some.inj (hserves.needs.symm.trans hneeds)).trans hm)

/-- Copies that are known by one key have one symbol. -/
theorem symbol_eq_of_key_eq {d d' : Definition} (h : key d = key d') :
    d.symbol P.perUnit = d'.symbol P.perUnit := by
  have hkey : ∀ d : Definition, (key d = .inl d) ∨ key d = .inr (d.symbol P.perUnit) := by
    intro d
    cases d with
    | plain n => exact .inl rfl
    | special p arch bound =>
      cases arch with
      | none => exact .inr rfl
      | some a => exact .inl rfl
  rcases hkey d with hd | hd <;> rcases hkey d' with hd' | hd' <;> rw [hd, hd'] at h
  · rw [Sum.inl.inj h]
  · cases h
  · cases h
  · exact Sum.inr.inj h

theorem Clean.eq_of_symbol_eq (h : Clean P) {d d' : Definition} (hd : Needed P d)
    (hd' : Needed P d') (heq : d.symbol P.perUnit = d'.symbol P.perUnit) : d = d' := by
  by_contra hne
  exact h.apart d d' hd hd' hne ((symbol_eq_iff P.perUnit hne).mp heq)

theorem plain_nodup_iff :
    (P.plain.map fun d => Definition.plain d.name).Nodup ↔ (P.plain.map Decl.name).Nodup := by
  have hplain : P.plain.map (fun d => Definition.plain d.name) =
      (P.plain.map Decl.name).map Definition.plain := List.map_map.symm
  rw [hplain, List.nodup_map_iff fun _ _ => Definition.plain.inj]

theorem embedded_nodup (h : (P.plain.map Decl.name).Nodup) : P.embedded.Nodup := by
  rw [Program.embedded]
  exact (((List.filter_sublist).map _).nodup h |>.filter _).sublist (List.take_sublist _ _)

theorem embedded_length {n : Name} (h : n ∈ P.embedded) : n.length ≤ 255 := by
  have hlen := List.of_mem_filter (List.mem_of_mem_take h)
  rw [decide_eq_true_iff] at hlen
  omega

/-- A copy that has been asked for is none of the definitions that are emitted as they stand. -/
theorem Program.First.ne_plain {r x : Definition} (h : P.First r)
    (hpath : ReflTransGen P.AsksFor r x) (n : Name) : x ≠ .plain n := by
  have hasked : ∀ {e : Env} {c : Call}, x ∈ P.asked e c → x ≠ .plain n := by
    intro e c hx
    obtain ⟨q, -, ⟨a, -, rfl⟩ | ⟨bound, -, rfl⟩⟩ := mem_asked hx
    · exact Definition.noConfusion
    · exact Definition.noConfusion
  rcases hpath.cases_tail with rfl | ⟨y, -, c, -, hx⟩
  · obtain ⟨d, -, c, -, hx⟩ := h
    exact hasked hx
  · exact hasked hx

theorem Clean.ends (h : Clean P) : ∃ fuel s, P.generate fuel = .done s := by
  obtain ⟨fuel, hfuel⟩ := generate_ends P
  cases hs : P.generate fuel with
  | running => exact absurd hs hfuel
  | undefined =>
    obtain ⟨d, hd, hundef⟩ := generate_undefined hs
    exact absurd (h.defined (h.needed_of_reached hd)) hundef
  | done s => exact ⟨fuel, s, hs⟩

section Done

variable {s : State}

/-- The keys tell apart what a clean program asks for, so just that is emitted. -/
theorem Clean.mem_copies_iff (h : Clean P) (hvalid : Valid P s) (hdone : s.work.pending = [])
    (d : Definition) :
    d ∈ s.copies ↔ ∃ r, P.First r ∧ ReflTransGen P.AsksFor r d :=
  hvalid.kept.mem_iff hdone (fun _ _ _ _ hr hr' hpath hpath' hkey =>
    h.eq_of_symbol_eq (h.needed_of_reached (hr.reached hpath))
      (h.needed_of_reached (hr'.reached hpath')) (symbol_eq_of_key_eq hkey)) d

theorem Clean.needed_of_emitted (h : Clean P) (hvalid : Valid P s) {d : Definition}
    (hd : d ∈ P.emitted s) : Needed P d := by
  rcases List.mem_append.mp hd with hd | hd
  · obtain ⟨d', hd', rfl⟩ := List.mem_map.mp hd
    exact .plain hd'
  · exact h.needed_of_reached (hvalid.reached (List.mem_append_right _ hd))

theorem Clean.emitted_nodup (h : Clean P) (hvalid : Valid P s) : (P.emitted s).Nodup := by
  refine List.nodup_append.mpr ⟨plain_nodup_iff.mpr h.names, hvalid.kept.nodup.of_map key,
    fun d hd d' hd' heq => ?_⟩
  obtain ⟨c, -, rfl⟩ := List.mem_map.mp hd
  obtain ⟨r, hr, hpath⟩ := hvalid.kept.asked d' (List.mem_append_right _ hd')
  exact hr.ne_plain hpath c.name heq.symm

theorem Clean.asked_mem (h : Clean P) (hvalid : Valid P s) (hdone : s.work.pending = [])
    {d x : Definition} (hd : d ∈ P.emitted s) (hasks : P.AsksFor d x) : x ∈ P.emitted s := by
  refine List.mem_append_right _ ((h.mem_copies_iff hvalid hdone x).mpr ?_)
  rcases List.mem_append.mp hd with hd | hd
  · obtain ⟨d', hd', rfl⟩ := List.mem_map.mp hd
    exact ⟨x, ⟨d', hd', hasks⟩, .refl⟩
  · obtain ⟨r, hr, hpath⟩ := (h.mem_copies_iff hvalid hdone d).mp hd
    exact ⟨r, hr, hpath.tail hasks⟩

end Done

theorem Clean.right (h : Clean P) :
    ∃ fuel s, P.generate fuel = .done s ∧ Right P (P.emitted s) := by
  obtain ⟨fuel, s, hs⟩ := h.ends
  obtain ⟨hvalid, hdone, -⟩ := generate_done hs
  have hnodup := h.emitted_nodup hvalid
  refine ⟨fuel, s, hs, ?_, fun d hd c q hcall => ?_, ?_⟩
  · exact hnodup.map_on fun d hd d' hd' =>
      h.eq_of_symbol_eq (h.needed_of_emitted hvalid hd) (h.needed_of_emitted hvalid hd')
  · obtain ⟨x, hserves⟩ :=
      (h.handled d (h.needed_of_emitted hvalid hd) c q hcall).serves hcall.callee
    have hasks : P.AsksFor d x := ⟨c, hcall.mem, hserves.asked ▸ List.mem_singleton_self x⟩
    exact ⟨x, hserves.needs, hserves.target,
      List.count_eq_one_of_mem hnodup (h.asked_mem hvalid hdone hd hasks)⟩
  · refine (embedded_nodup h.names).map_on fun n hn m hm heq => ?_
    by_contra hne
    exact h.shaders n hn m hm hne
      ((shaderSymbol_eq_iff (embedded_length hn) (embedded_length hm)).mp heq)

/-- All that is needed is there, where each call goes to the copy it needs. -/
theorem Right.mem_of_needed {s : State} (h : Right P (P.emitted s)) {d : Definition}
    (hd : Needed P d) : d ∈ P.emitted s := by
  induction hd with
  | plain hd => exact List.mem_append_left _ (List.mem_map_of_mem hd)
  | copy _ hcall hneeds ih =>
    obtain ⟨x, hneeds', -, hcount⟩ := h.calls _ ih _ _ hcall
    cases hneeds.symm.trans hneeds'
    exact List.count_pos_iff.mp (hcount ▸ Nat.one_pos)

theorem clean_of_right {fuel : Nat} {s : State} (hs : P.generate fuel = .done s)
    (h : Right P (P.emitted s)) : Clean P := by
  obtain ⟨hvalid, -, hplain⟩ := generate_done hs
  have hdefined : ∀ d ∈ P.emitted s, P.Defined d := by
    intro d hd
    rcases List.mem_append.mp hd with hd | hd
    · obtain ⟨d', hd', rfl⟩ := List.mem_map.mp hd
      exact hplain d' hd'
    · exact hvalid.defined d hd
  refine ⟨?_, fun d d' hd hd' hne hclash => ?_, fun d hd c q hcall => ?_,
    fun n hn m hm hne hsame => ?_⟩
  · exact plain_nodup_iff.mp (List.nodup_append.mp (h.symbols.of_map _)).1
  · exact hne (List.inj_on_of_nodup_map h.symbols (h.mem_of_needed hd) (h.mem_of_needed hd')
      ((symbol_eq_iff P.perUnit hne).mpr hclash))
  · have hmem := h.mem_of_needed hd
    obtain ⟨x, hneeds, htarget, -⟩ := h.calls d hmem c q hcall
    exact handled_of_target hcall.callee hcall.parametric hneeds htarget
      ((hdefined d hmem).within c hcall.mem)
  · exact hne (List.inj_on_of_nodup_map h.shaders hn hm
      ((shaderSymbol_eq_iff (embedded_length hn) (embedded_length hm)).mpr hsame))

/-- Emission comes to an end, with a symbol of its own for each definition, and with each copy that
is called emitted once, just for the programs that are clean. -/
theorem generate_right_iff (P : Program) :
    (∃ fuel s, P.generate fuel = .done s ∧ Right P (P.emitted s)) ↔ Clean P := by
  constructor
  · rintro ⟨fuel, s, hs, hright⟩
    exact clean_of_right hs hright
  · exact Clean.right

/-- `a(b_c)` and `a_b(c)` both go to `__a_b_c`. -/
def underscores : Program where
  decls := [⟨"a".toList, .proc, [⟨"x".toList, .archetype⟩], []⟩,
    ⟨"a_b".toList, .proc, [⟨"x".toList, .archetype⟩], []⟩,
    ⟨"entry".toList, .kernel false, [],
      [⟨"a".toList, [.name "b_c".toList]⟩, ⟨"a_b".toList, [.name "c".toList]⟩]⟩]
  archetypes := [("b_c".toList, "b_c".toList), ("c".toList, "c".toList)]
  perUnit := false

theorem underscores_needed {p a : Name} {q : Decl}
    (hc : ⟨p, [.name a]⟩ ∈ underscores.calls (.plain "entry".toList))
    (hq : underscores.findProcDecl p = some q) (hparam : q.isParametric = true)
    (hneeds : Env.empty.needs underscores q [.name a] = some (.special p (some a) [])) :
    Needed underscores (.special p (some a) []) :=
  .copy (.plain (d := ⟨"entry".toList, .kernel false, [],
    [⟨"a".toList, [.name "b_c".toList]⟩, ⟨"a_b".toList, [.name "c".toList]⟩]⟩) (by decide))
    ⟨hc, hq, hparam⟩ hneeds

theorem underscores_not_clean : ¬ Clean underscores := by
  intro h
  have hfirst : Needed underscores (.special "a".toList (some "b_c".toList) []) :=
    underscores_needed (by decide) rfl (by decide) (by decide)
  have hsecond : Needed underscores (.special "a_b".toList (some "c".toList) []) :=
    underscores_needed (by decide) rfl (by decide) (by decide)
  refine h.apart _ _ hfirst hsecond (by decide) ?_
  show Lib.cutWords _ _ = Lib.cutWords _ _
  decide

theorem not_generate_right :
    ¬ ∀ P : Program, ∃ fuel s, P.generate fuel = .done s ∧ Right P (P.emitted s) := by
  intro h
  obtain ⟨fuel, s, hs, hright⟩ := h underscores
  exact underscores_not_clean (clean_of_right hs hright)

end Clean

end Arche.Codegen.Specialisations
