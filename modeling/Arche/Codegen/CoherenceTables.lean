import Arche.Codegen.GpuCoherence
import Mathlib.Tactic.Common
import Mathlib.Data.List.Perm.Subperm

/-!
# What the pass knows of a pool

The entries of `CgCoh` as a function of the pool, while there is room for all pools of
the schedule, and what a part of the schedule can change in it: a flag that is set after
the part was set before or belongs to a pool that a kernel in the part writes or touches
(`process_bounds`).
-/

namespace Arche.Codegen.GpuCoherence

open Arche.Semantic.Schedule (Tree)

variable {κ V : Type} {ps : List String} {c : Coh}

/-! ## Room -/

/-- The table has entries for some of the pools `ps`, one for each. -/
structure Within (ps : List String) (c : Coh) : Prop where
  distinct : (c.entries.map Prod.fst).Nodup
  sub : ∀ e ∈ c.entries, e.1 ∈ ps

theorem length_lt_of_not_mem {l : List String} (hl : l.Nodup) (hsub : l ⊆ ps) {p : String}
    (hp : p ∈ ps) (hnew : p ∉ l) (hps : ps.length ≤ 128) : l.length < 128 := by
  have hall : (p :: l).length ≤ ps.length :=
    ((List.nodup_cons.mpr ⟨hnew, hl⟩).subperm (List.cons_subset.mpr ⟨hp, hsub⟩)).length_le
  rw [List.length_cons] at hall
  omega

theorem lookup_isSome_iff {l : List (String × Flags)} {p : String} :
    (l.lookup p).isSome = true ↔ p ∈ l.map Prod.fst := by
  induction l with
  | nil => simp
  | cons e l ih =>
    rw [List.lookup_cons, List.map_cons, List.mem_cons]
    by_cases h : p = e.1
    · simp [h]
    · rw [beq_eq_false_iff_ne.mpr h]
      exact ih.trans (or_iff_right h).symm

theorem lookup_map_entries (l : List (String × Flags)) (g : String → Flags → Flags) (q : String) :
    (l.map fun e => (e.1, g e.1 e.2)).lookup q = (l.lookup q).map (g q) := by
  induction l with
  | nil => rfl
  | cons e l ih =>
    rw [List.map_cons, List.lookup_cons, List.lookup_cons]
    by_cases h : q = e.1
    · simp [h]
    · rw [beq_eq_false_iff_ne.mpr h]
      exact ih

theorem Within.room (hc : Within ps c) (hps : ps.length ≤ 128) {p : String} (hp : p ∈ ps)
    (hnew : (c.entries.lookup p).isSome ≠ true) : c.entries.length < 128 := by
  have h := length_lt_of_not_mem hc.distinct
    (fun q hq => by obtain ⟨e, he, rfl⟩ := List.mem_map.mp hq; exact hc.sub e he) hp
    (fun hmem => hnew (lookup_isSome_iff.mpr hmem)) hps
  rwa [List.length_map] at h

theorem get_modify (hc : Within ps c) (hps : ps.length ≤ 128) {p : String} (hp : p ∈ ps)
    (f : Flags → Flags) (q : String) :
    (c.modify p f).get q = if q = p then f (c.get p) else c.get q := by
  unfold Coh.modify
  split
  · next hsome =>
    show ((c.entries.map fun e => (e.1, if e.1 = p then f e.2 else e.2)).lookup q).getD {} = _
    rw [lookup_map_entries c.entries (fun x e => if x = p then f e else e)]
    by_cases hq : q = p
    · subst hq
      obtain ⟨e, he⟩ := Option.isSome_iff_exists.mp hsome
      simp [Coh.get, he]
    · simp only [if_neg hq, Coh.get]
      cases c.entries.lookup q <;> rfl
  · next hnone =>
    rw [if_pos (hc.room hps hp hnone)]
    show ((c.entries ++ [(p, f {})]).lookup q).getD {} = _
    have hp0 : c.entries.lookup p = none := Option.not_isSome_iff_eq_none.mp hnone
    rw [List.lookup_append]
    by_cases hq : q = p
    · subst hq
      simp [Coh.get, hp0]
    · have hone : List.lookup q [(p, f {})] = none := by
        rw [List.lookup_cons, beq_eq_false_iff_ne.mpr hq]
        rfl
      rw [if_neg hq, hone]
      simp [Coh.get]

theorem within_map (hc : Within ps c) (g : String → Flags → Flags) :
    Within ps { c with entries := c.entries.map fun e => (e.1, g e.1 e.2) } where
  distinct := by
    rw [List.map_map]
    exact hc.distinct
  sub e he := by
    obtain ⟨e', he', rfl⟩ := List.mem_map.mp he
    exact hc.sub e' he'

theorem within_modify (hc : Within ps c) {p : String} (hp : p ∈ ps) (f : Flags → Flags) :
    Within ps (c.modify p f) := by
  unfold Coh.modify
  split
  · exact within_map hc fun x e => if x = p then f e else e
  · next hnone =>
    split
    · have hnew : p ∉ c.entries.map Prod.fst := fun hmem => hnone (lookup_isSome_iff.mpr hmem)
      constructor
      · rw [List.map_append]
        refine List.nodup_append.mpr ⟨hc.distinct, List.pairwise_singleton _ _, ?_⟩
        rintro x hx y hy rfl
        cases List.mem_singleton.mp hy
        exact hnew hx
      · intro e he
        rcases List.mem_append.mp he with he | he
        · exact hc.sub e he
        · cases List.mem_singleton.mp he
          exact hp
    · exact hc

theorem get_map (c : Coh) (g : Flags → Flags) (hg : g {} = {}) (q : String) :
    Coh.get { c with entries := c.entries.map fun e => (e.1, g e.2) } q = g (c.get q) := by
  show ((c.entries.map fun e => (e.1, g e.2)).lookup q).getD {} = _
  rw [lookup_map_entries c.entries (fun _ e => g e), Coh.get]
  cases c.entries.lookup q with
  | none => exact hg.symm
  | some e => rfl

theorem get_resetRuns (c : Coh) (q : String) : c.resetRuns.get q = { c.get q with gpuRun := 0 } :=
  get_map c (fun e => { e with gpuRun := 0 }) rfl q

theorem get_flush (c : Coh) (q : String) : c.flush.2.get q = { c.get q with dirtyGpu := false } :=
  get_map c (fun e => { e with dirtyGpu := false }) rfl q

/-! ## The flags of a table -/

/-- What of a table matters for the copies. -/
def Flags.Le (e e' : Flags) : Prop :=
  (e.dirtyGpu = true → e'.dirtyGpu = true) ∧ (e.dirtyHost = true → e'.dirtyHost = true) ∧
    (e.gpuSeen = true → e'.gpuSeen = true)

theorem Flags.Le.refl (e : Flags) : e.Le e := ⟨id, id, id⟩

theorem Flags.Le.trans {a b d : Flags} (h : a.Le b) (h' : b.Le d) : a.Le d :=
  ⟨h'.1 ∘ h.1, h'.2.1 ∘ h.2.1, h'.2.2 ∘ h.2.2⟩

/-- One update after the other, each for its own pool. -/
theorem get_foldl_modify (hps : ps.length ≤ 128) {f : Flags → Flags} (hf : ∀ e, f (f e) = f e)
    (step : Coh → String → Coh) (hstep : ∀ c p, (step c p).entries = (c.modify p f).entries) :
    ∀ (l : List String) {c : Coh}, Within ps c → (∀ p ∈ l, p ∈ ps) →
      Within ps (l.foldl step c) ∧
        ∀ q, (l.foldl step c).get q = if q ∈ l then f (c.get q) else c.get q := by
  intro l
  induction l with
  | nil => exact fun hc _ => ⟨hc, fun q => rfl⟩
  | cons p l ih =>
    intro c hc hl
    have hp : p ∈ ps := hl p List.mem_cons_self
    have hentries := hstep c p
    have hwithin : Within ps (step c p) := by
      have h := within_modify hc hp f
      exact ⟨hentries ▸ h.distinct, fun e he => h.sub e (hentries ▸ he)⟩
    have hget (q : String) : (step c p).get q = if q = p then f (c.get p) else c.get q := by
      rw [← get_modify hc hps hp f q, Coh.get, Coh.get, hentries]
    obtain ⟨hw, hfold⟩ := ih hwithin fun q hq => hl q (List.mem_cons_of_mem _ hq)
    refine ⟨hw, fun q => ?_⟩
    rw [List.foldl_cons, hfold, hget]
    by_cases hqp : q = p
    · subst hqp
      by_cases hql : q ∈ l <;> simp [hql, hf]
    · by_cases hql : q ∈ l <;> simp [hql, hqp]

/-! ## The accesses of a part of the schedule -/

section Accesses

variable (P : Program κ V)

mutual

/-- The pools the pass meets in a schedule. -/
def poolsOf : Tree → List String
  | .run sym =>
    match P.findScheduledDecl sym with
    | none => []
    | some k => k.footprint.map Access.pool
  | .halt | .gpuSync none => []
  | .gpuSync (some sym) => [P.canonicalArchName sym]
  | .seq ts | .par ts => poolsOfAll ts
  | .loop t | .whenT _ t => poolsOf t

def poolsOfAll : List Tree → List String
  | [] => []
  | t :: ts => poolsOf t ++ poolsOfAll ts

end

/-- The accesses of some kernels, with their places. -/
def accesses (ks : List (Kernel P.pool V)) : List (Bool × Access) :=
  ks.flatMap fun k => k.footprint.map fun a => (k.gpu, a)

end Accesses

/-- GPU writes, GPU touches and host writes: what `CgLoopSets` collects. -/
def gpuWrites (x : Bool × Access) : Bool := x.1 && x.2.isWrite
def gpuTouches (x : Bool × Access) : Bool := x.1 && (x.2.isRead || x.2.isWrite)
def hostWrites (x : Bool × Access) : Bool := !x.1 && x.2.isWrite

/-- An access of the kind `sel` to the pool. -/
def Marked (sel : Bool × Access → Bool) (l : List (Bool × Access)) (q : String) : Prop :=
  ∃ x ∈ l, sel x = true ∧ x.2.pool = q

theorem marked_append {sel : Bool × Access → Bool} {l l' : List (Bool × Access)} {q : String} :
    Marked sel (l ++ l') q ↔ Marked sel l q ∨ Marked sel l' q := by
  unfold Marked
  constructor
  · rintro ⟨x, hx, h⟩
    exact (List.mem_append.mp hx).imp (⟨x, ·, h⟩) (⟨x, ·, h⟩)
  · rintro (⟨x, hx, h⟩ | ⟨x, hx, h⟩)
    · exact ⟨x, List.mem_append_left _ hx, h⟩
    · exact ⟨x, List.mem_append_right _ hx, h⟩

section LoopSets

variable {P : Program κ V}

theorem accesses_append (ks ks' : List (Kernel P.pool V)) :
    accesses P (ks ++ ks') = accesses P ks ++ accesses P ks' :=
  List.flatMap_append

mutual

theorem accesses_pool {t : Tree} {x : Bool × Access} (hx : x ∈ accesses P (kernels P t)) :
    x.2.pool ∈ poolsOf P t := by
  cases t with
  | run sym =>
    unfold poolsOf
    cases hk : P.findScheduledDecl sym with
    | none => simp [kernels, accesses, hk] at hx
    | some k =>
      simp only [kernels, accesses, hk, Option.toList_some, List.flatMap_cons, List.flatMap_nil,
        List.append_nil, List.mem_map] at hx
      obtain ⟨a, ha, rfl⟩ := hx
      exact List.mem_map_of_mem ha
  | halt => simp [kernels, accesses] at hx
  | gpuSync sym => simp [kernels, accesses] at hx
  | seq ts =>
    unfold poolsOf
    exact accesses_poolAll (by simpa only [kernels] using hx)
  | par ts =>
    unfold poolsOf
    exact accesses_poolAll (by simpa only [kernels] using hx)
  | loop t =>
    unfold poolsOf
    exact accesses_pool (by simpa only [kernels] using hx)
  | whenT sym t =>
    unfold poolsOf
    exact accesses_pool (by simpa only [kernels] using hx)

theorem accesses_poolAll {ts : List Tree} {x : Bool × Access}
    (hx : x ∈ accesses P (kernelsAll P ts)) : x.2.pool ∈ poolsOfAll P ts := by
  cases ts with
  | nil => simp [kernelsAll, accesses] at hx
  | cons t ts =>
    unfold poolsOfAll
    rw [kernelsAll, accesses_append] at hx
    rcases List.mem_append.mp hx with hx | hx
    · exact List.mem_append_left _ (accesses_pool hx)
    · exact List.mem_append_right _ (accesses_poolAll hx)

end

mutual

/-- The pass meets canonical names only. -/
theorem poolsOf_canonical {t : Tree} {p : String} (hp : p ∈ poolsOf P t) :
    P.canonicalArchName p = p := by
  cases t with
  | run sym =>
    unfold poolsOf at hp
    cases hk : P.findScheduledDecl sym with
    | none =>
      rw [hk] at hp
      cases hp
    | some k =>
      rw [hk] at hp
      obtain ⟨a, ha, rfl⟩ := List.mem_map.mp hp
      obtain ⟨d, hd, rfl⟩ := Option.map_eq_some_iff.mp hk
      exact P.canonical d (List.mem_of_find?_eq_some hd) a ha
  | halt =>
    rw [poolsOf] at hp
    cases hp
  | gpuSync sym =>
    cases sym with
    | none =>
      rw [poolsOf] at hp
      cases hp
    | some sym =>
      rw [poolsOf, List.mem_singleton] at hp
      rw [hp, P.idempotent]
  | seq ts =>
    rw [poolsOf] at hp
    exact poolsOfAll_canonical hp
  | par ts =>
    rw [poolsOf] at hp
    exact poolsOfAll_canonical hp
  | loop t =>
    rw [poolsOf] at hp
    exact poolsOf_canonical hp
  | whenT sym t =>
    rw [poolsOf] at hp
    exact poolsOf_canonical hp

theorem poolsOfAll_canonical {ts : List Tree} {p : String} (hp : p ∈ poolsOfAll P ts) :
    P.canonicalArchName p = p := by
  cases ts with
  | nil =>
    rw [poolsOfAll] at hp
    cases hp
  | cons t ts =>
    rw [poolsOfAll] at hp
    exact (List.mem_append.mp hp).elim poolsOf_canonical poolsOfAll_canonical

end

/-- Adds the accesses of a kind. -/
def addSel (sel : Bool × Access → Bool) (l : List String) (x : Bool × Access) : List String :=
  if sel x then loopsetAdd l x.2.pool else l

theorem mem_loopsetAdd {l : List String} (hl : l.Nodup) (hsub : l ⊆ ps) (hps : ps.length ≤ 128)
    {p : String} (hp : p ∈ ps) :
    (loopsetAdd l p).Nodup ∧ loopsetAdd l p ⊆ ps ∧ ∀ q, q ∈ loopsetAdd l p ↔ q ∈ l ∨ q = p := by
  unfold loopsetAdd
  split
  · next hmem =>
    exact ⟨hl, hsub, fun q => ⟨.inl, fun h => h.elim id fun h => h ▸ hmem⟩⟩
  · next hnew =>
    rw [if_pos (length_lt_of_not_mem hl hsub hp hnew hps)]
    refine ⟨List.nodup_append.mpr ⟨hl, List.pairwise_singleton _ _, ?_⟩, ?_, fun q => ?_⟩
    · rintro x hx y hy rfl
      exact hnew (List.mem_singleton.mp hy ▸ hx)
    · exact List.append_subset.mpr ⟨hsub, List.cons_subset.mpr ⟨hp, List.nil_subset _⟩⟩
    · rw [List.mem_append, List.mem_singleton]

theorem mem_foldl_addSel (hps : ps.length ≤ 128) (sel : Bool × Access → Bool) :
    ∀ (xs : List (Bool × Access)) {l : List String}, l.Nodup → l ⊆ ps →
      (∀ x ∈ xs, x.2.pool ∈ ps) → ∀ q, q ∈ xs.foldl (addSel sel) l ↔ q ∈ l ∨ Marked sel xs q := by
  intro xs
  induction xs with
  | nil =>
    intro l _ _ _ q
    exact ⟨.inl, fun h => h.elim id fun ⟨_, hx, _⟩ => absurd hx List.not_mem_nil⟩
  | cons x xs ih =>
    intro l hl hsub hxs q
    have hcons : Marked sel (x :: xs) q ↔ (sel x = true ∧ x.2.pool = q) ∨ Marked sel xs q := by
      simp [Marked]
    have hrest (y) (hy : y ∈ xs) := hxs y (List.mem_cons_of_mem _ hy)
    rw [List.foldl_cons, hcons]
    by_cases hsel : sel x = true
    · obtain ⟨hl', hsub', hmem⟩ := mem_loopsetAdd hl hsub hps (hxs x List.mem_cons_self)
      rw [addSel, if_pos hsel, ih hl' hsub' hrest, hmem]
      simp only [hsel, true_and, eq_comm, or_assoc]
    · rw [addSel, if_neg hsel, ih hl hsub hrest]
      simp [hsel]

theorem collectLoopSets_eq (t : Tree) :
    collectLoopSets P t =
      (accesses P (kernels P t)).foldl (fun ls x => ls.add x.1 x.2) {} := by
  unfold collectLoopSets accesses
  rw [List.foldl_flatMap]
  congr 1
  funext ls k
  rw [List.foldl_map]

theorem gwrite_add (ls : LoopSets) (x : Bool × Access) :
    addSel gpuWrites ls.gwrite x = (ls.add x.1 x.2).gwrite := by
  obtain ⟨gpu, a⟩ := x
  cases gpu <;> cases h : a.isWrite <;> simp [addSel, gpuWrites, LoopSets.add, h]

theorem gtouch_add (ls : LoopSets) (x : Bool × Access) :
    addSel gpuTouches ls.gtouch x = (ls.add x.1 x.2).gtouch := by
  obtain ⟨gpu, a⟩ := x
  cases gpu <;> cases h : a.isRead || a.isWrite <;> simp [addSel, gpuTouches, LoopSets.add, h]

theorem hwrite_add (ls : LoopSets) (x : Bool × Access) :
    addSel hostWrites ls.hwrite x = (ls.add x.1 x.2).hwrite := by
  obtain ⟨gpu, a⟩ := x
  cases gpu <;> cases h : a.isWrite <;> simp [addSel, hostWrites, LoopSets.add, h]

/-- The loop sets hold exactly the pools of their kind. -/
theorem mem_collectLoopSets (hps : ps.length ≤ 128) {t : Tree} (ht : poolsOf P t ⊆ ps) (q : String) :
    (q ∈ (collectLoopSets P t).gwrite ↔ Marked gpuWrites (accesses P (kernels P t)) q) ∧
    (q ∈ (collectLoopSets P t).gtouch ↔ Marked gpuTouches (accesses P (kernels P t)) q) ∧
    (q ∈ (collectLoopSets P t).hwrite ↔ Marked hostWrites (accesses P (kernels P t)) q) := by
  have hin (x) (hx : x ∈ accesses P (kernels P t)) : x.2.pool ∈ ps := ht (accesses_pool hx)
  have hmem (sel) : q ∈ (accesses P (kernels P t)).foldl (addSel sel) [] ↔
      Marked sel (accesses P (kernels P t)) q := by
    simpa using mem_foldl_addSel hps sel _ List.nodup_nil (List.nil_subset ps) hin q
  rw [collectLoopSets_eq, ← List.foldl_hom LoopSets.gwrite gwrite_add,
    ← List.foldl_hom LoopSets.gtouch gtouch_add, ← List.foldl_hom LoopSets.hwrite hwrite_add]
  exact ⟨hmem gpuWrites, hmem gpuTouches, hmem hostWrites⟩

end LoopSets

/-! ## What a step does to the flags -/

/-- The step writes the pool. -/
def Writes (fp : List Access) (q : String) : Prop := ∃ a ∈ fp, a.pool = q ∧ a.isWrite = true

theorem writes_cons {a : Access} {fp : List Access} {q : String} :
    Writes (a :: fp) q ↔ (a.pool = q ∧ a.isWrite = true) ∨ Writes fp q := by
  simp [Writes]

theorem applyAccess_entries (gpu : Bool) (c : Coh) (a : Access) :
    (applyAccess gpu c a).entries = (c.modify a.pool (Flags.after gpu a)).entries := by
  unfold applyAccess
  dsimp only
  split <;> rfl

/-- The flags after the accesses of a step. -/
theorem get_applyAll (hps : ps.length ≤ 128) (gpu : Bool) :
    ∀ (fp : List Access) {c : Coh}, Within ps c → (∀ a ∈ fp, a.pool ∈ ps) →
      Within ps (fp.foldl (applyAccess gpu) c) ∧ ∀ q,
        (((fp.foldl (applyAccess gpu) c).get q).dirtyGpu = true ↔
          if gpu then (c.get q).dirtyGpu = true ∨ Writes fp q
          else (c.get q).dirtyGpu = true ∧ ¬ Writes fp q) ∧
        (((fp.foldl (applyAccess gpu) c).get q).dirtyHost = true ↔
          if gpu then (c.get q).dirtyHost = true ∧ ¬ Writes fp q
          else (c.get q).dirtyHost = true ∨ Writes fp q) ∧
        (((fp.foldl (applyAccess gpu) c).get q).gpuSeen = true ↔
          (c.get q).gpuSeen = true ∨ (gpu = true ∧ ∃ a ∈ fp, a.pool = q)) := by
  intro fp
  induction fp with
  | nil =>
    intro c hc _
    refine ⟨hc, fun q => ?_⟩
    cases gpu <;> simp [Writes]
  | cons a fp ih =>
    intro c hc hfp
    have ha : a.pool ∈ ps := hfp a List.mem_cons_self
    have hentries := applyAccess_entries gpu c a
    have hwithin : Within ps (applyAccess gpu c a) := by
      have h := within_modify hc ha (Flags.after gpu a)
      exact ⟨hentries ▸ h.distinct, fun e he => h.sub e (hentries ▸ he)⟩
    have hget (q : String) : (applyAccess gpu c a).get q =
        if q = a.pool then (c.get a.pool).after gpu a else c.get q := by
      rw [← get_modify hc hps ha _ q, Coh.get, Coh.get, hentries]
    obtain ⟨hw, hfold⟩ := ih hwithin fun b hb => hfp b (List.mem_cons_of_mem _ hb)
    refine ⟨hw, fun q => ?_⟩
    obtain ⟨h₁, h₂, h₃⟩ := hfold q
    rw [List.foldl_cons, h₁, h₂, h₃, hget, writes_cons]
    by_cases hq : q = a.pool
    · subst hq
      cases gpu <;> cases hw : a.isWrite <;> simp [Flags.after, hw]
    · have hne : a.pool ≠ q := fun h => hq h.symm
      simp [hq, hne]

/-- No transfer is needed before the step. -/
def Flags.Clean (gpu : Bool) (e : Flags) : Prop :=
  if gpu then e.dirtyHost = true → e.gpuSeen = false else e.dirtyGpu = false

theorem Flags.Clean.mono {gpu : Bool} {e e' : Flags} (h : e'.Clean gpu) (hle : e.Le e')  :
    e.Clean gpu := by
  cases gpu with
  | true =>
    intro hd
    exact Bool.eq_false_iff.mpr fun hs => Bool.eq_false_iff.mp (h (hle.2.1 hd)) (hle.2.2 hs)
  | false => exact Bool.eq_false_iff.mpr fun hd => Bool.eq_false_iff.mp h (hle.1 hd)

/-- The transfers of a step only take flags away, and those the step asks about. -/
structure Cleared (gpu : Bool) (as : List Access) (c c' : Coh) : Prop where
  le : ∀ q, (c'.get q).Le (c.get q)
  seen : ∀ q, (c.get q).gpuSeen = true → (c'.get q).gpuSeen = true
  host : ∀ q, (c.get q).dirtyHost = true → gpu = false ∨ (∀ a ∈ as, a.pool ≠ q) →
    (c'.get q).dirtyHost = true
  clean : ∀ a ∈ as, a.isRead = true → (c'.get a.pool).Clean gpu

theorem get_touch (hc : Within ps c) (hps : ps.length ≤ 128) {p : String} (hp : p ∈ ps) (q : String) :
    (c.modify p id).get q = c.get q := by
  rw [get_modify hc hps hp]
  split
  · next h => rw [h]; rfl
  · rfl

theorem transfers_cleared (hps : ps.length ≤ 128) (gpu : Bool) :
    ∀ (as : List Access) {c : Coh}, Within ps c → (∀ a ∈ as, a.pool ∈ ps) →
      Within ps (transfers gpu as c).2 ∧ Cleared gpu as c (transfers gpu as c).2 := by
  intro as
  induction as with
  | nil =>
    intro c hc _
    exact ⟨hc, fun q => .refl _, fun q => id, fun q h _ => h, fun a ha => absurd ha List.not_mem_nil⟩
  | cons a as ih =>
    intro c hc has
    have ha : a.pool ∈ ps := has a List.mem_cons_self
    have hrest (b) (hb : b ∈ as) := has b (List.mem_cons_of_mem _ hb)
    -- the entry is made, then cleared by `f` or left alone
    have step (f : Flags → Flags) (hle : ∀ e, (f e).Le e) (hseen : ∀ e, (f e).gpuSeen = e.gpuSeen)
        (hhost : gpu = false → ∀ e, (f e).dirtyHost = e.dirtyHost)
        (hclean : (f (c.get a.pool)).Clean gpu) {c' : Coh} (hc' : Within ps c')
        (hget : ∀ q, c'.get q = if q = a.pool then f (c.get q) else c.get q) :
        Within ps (transfers gpu as c').2 ∧ Cleared gpu (a :: as) c (transfers gpu as c').2 := by
      obtain ⟨hw, hcl⟩ := ih hc' hrest
      have hle' (q : String) : (c'.get q).Le (c.get q) := by
        rw [hget]
        split
        · exact hle _
        · exact .refl _
      refine ⟨hw, fun q => (hcl.le q).trans (hle' q), fun q hq => hcl.seen q ?_, fun q hq hor => ?_,
        fun b hb hread => ?_⟩
      · rw [hget]
        split
        · rw [hseen]; exact hq
        · exact hq
      · refine hcl.host q ?_ (hor.imp id fun h b hb => h b (List.mem_cons_of_mem _ hb))
        rw [hget]
        split
        · next heq =>
          have hgpu : gpu = false := hor.resolve_right fun h => h a List.mem_cons_self heq.symm
          rw [hhost hgpu]
          exact hq
        · exact hq
      · rcases List.mem_cons.mp hb with rfl | hb
        · refine Flags.Clean.mono ?_ (hcl.le b.pool)
          rw [hget, if_pos rfl]
          exact hclean
        · exact hcl.clean b hb hread
    have htouch := within_modify hc ha id
    have hkeep (q : String) : (c.modify a.pool id).get q = c.get q := get_touch hc hps ha q
    unfold transfers
    split
    · next hread =>
      obtain ⟨hw, hcl⟩ := ih hc hrest
      refine ⟨hw, hcl.le, hcl.seen, fun q hq hor => hcl.host q hq (hor.imp id fun h b hb =>
        h b (List.mem_cons_of_mem _ hb)), fun b hb hb' => ?_⟩
      rcases List.mem_cons.mp hb with rfl | hb
      · rw [hread] at hb'
        cases hb'
      · exact hcl.clean b hb hb'
    · dsimp only
      rw [hkeep]
      split
      · next hsync =>
        rw [Bool.and_eq_true, Bool.not_eq_true'] at hsync
        obtain ⟨rfl, -⟩ := hsync
        refine step (fun e => { e with dirtyGpu := false, gpuRun := 0 }) (fun e => ⟨nofun, id, id⟩)
          (fun e => rfl) (fun _ e => rfl) rfl (within_modify htouch ha _) fun q => ?_
        rw [get_modify htouch hps ha, hkeep, hkeep]
        split
        · next h => rw [h]
        · rfl
      · next hnosync =>
        split
        · next hup =>
          rw [Bool.and_eq_true, Bool.and_eq_true] at hup
          obtain ⟨⟨rfl, -⟩, -⟩ := hup
          refine step (fun e => { e with dirtyHost := false }) (fun e => ⟨id, nofun, id⟩)
            (fun e => rfl) nofun nofun (within_modify htouch ha _) fun q => ?_
          rw [get_modify htouch hps ha, hkeep, hkeep]
          split
          · next h => rw [h]
          · rfl
        · next hnoup =>
          refine step id (fun e => .refl e) (fun e => rfl) (fun _ e => rfl) ?_ htouch fun q => ?_
          · cases gpu <;> simp_all [Flags.Clean]
          · rw [hkeep, id, ite_self]

theorem get_seed (hps : ps.length ≤ 128) (hc : Within ps c) {ls : LoopSets} (hg : ls.gwrite ⊆ ps)
    (hh : ls.hwrite ⊆ ps) : Within ps (c.seed ls) ∧ ∀ q,
      (((c.seed ls).get q).dirtyGpu = true ↔ (c.get q).dirtyGpu = true ∨ q ∈ ls.gwrite) ∧
      (((c.seed ls).get q).dirtyHost = true ↔ (c.get q).dirtyHost = true ∨ q ∈ ls.hwrite) ∧
      (((c.seed ls).get q).gpuSeen = true ↔ (c.get q).gpuSeen = true) := by
  obtain ⟨hw₁, hget₁⟩ := get_foldl_modify hps (f := fun e => { e with dirtyGpu := true })
    (fun _ => rfl) _ (fun c p => rfl) ls.gwrite hc fun p hp => hg hp
  obtain ⟨hw₂, hget₂⟩ := get_foldl_modify hps (f := fun e => { e with dirtyHost := true })
    (fun _ => rfl) _ (fun c p => rfl) ls.hwrite hw₁ fun p hp => hh hp
  refine ⟨hw₂, fun q => ?_⟩
  rw [Coh.seed, hget₂, hget₁]
  by_cases h₁ : q ∈ ls.gwrite <;> by_cases h₂ : q ∈ ls.hwrite <;> simp [h₁, h₂]

theorem get_seedSeen (hps : ps.length ≤ 128) (hc : Within ps c) {ls : LoopSets} (ht : ls.gtouch ⊆ ps) :
    Within ps (c.seedSeen ls) ∧ ∀ q,
      (((c.seedSeen ls).get q).dirtyGpu = (c.get q).dirtyGpu) ∧
      (((c.seedSeen ls).get q).dirtyHost = (c.get q).dirtyHost) ∧
      (((c.seedSeen ls).get q).gpuSeen = true ↔ (c.get q).gpuSeen = true ∨ q ∈ ls.gtouch) := by
  obtain ⟨hw, hget⟩ := get_foldl_modify hps (f := fun e => { e with gpuSeen := true })
    (fun _ => rfl) (fun c p => (c.modify p fun e => { e with gpuSeen := true }).setResident p)
    (fun c p => rfl) ls.gtouch hc fun p hp => ht hp
  refine ⟨hw, fun q => ?_⟩
  rw [Coh.seedSeen, hget]
  by_cases h : q ∈ ls.gtouch <;> simp [h]

/-! ## What a part of the schedule can change -/

/-- The flags after a part, from those before it and the accesses in it. -/
structure Bounds (l : List (Bool × Access)) (c c' : Coh) : Prop where
  gpu : ∀ q, (c'.get q).dirtyGpu = true → (c.get q).dirtyGpu = true ∨ Marked gpuWrites l q
  host : ∀ q, (c'.get q).dirtyHost = true → (c.get q).dirtyHost = true ∨ Marked hostWrites l q
  seen : ∀ q, (c'.get q).gpuSeen = true → (c.get q).gpuSeen = true ∨ Marked gpuTouches l q
  seen_kept : ∀ q, (c.get q).gpuSeen = true → (c'.get q).gpuSeen = true
  host_kept : ∀ q, (c.get q).dirtyHost = true → ¬ Marked gpuTouches l q → (c'.get q).dirtyHost = true

theorem Bounds.refl (l : List (Bool × Access)) (c : Coh) : Bounds l c c :=
  ⟨fun _ => .inl, fun _ => .inl, fun _ => .inl, fun _ => id, fun _ h _ => h⟩

theorem Bounds.trans {l l' : List (Bool × Access)} {c₁ c₂ c₃ : Coh} (h : Bounds l c₁ c₂)
    (h' : Bounds l' c₂ c₃) : Bounds (l ++ l') c₁ c₃ where
  gpu q hq := by
    rw [marked_append]
    rcases h'.gpu q hq with hq | hq
    · exact (h.gpu q hq).imp id .inl
    · exact .inr (.inr hq)
  host q hq := by
    rw [marked_append]
    rcases h'.host q hq with hq | hq
    · exact (h.host q hq).imp id .inl
    · exact .inr (.inr hq)
  seen q hq := by
    rw [marked_append]
    rcases h'.seen q hq with hq | hq
    · exact (h.seen q hq).imp id .inl
    · exact .inr (.inr hq)
  seen_kept q hq := h'.seen_kept q (h.seen_kept q hq)
  host_kept q hq hno := by
    rw [marked_append, not_or] at hno
    exact h'.host_kept q (h.host_kept q hq hno.1) hno.2

section Bounds

variable {P : Program κ V}

theorem step_bounds (hps : ps.length ≤ 128) (hc : Within ps c) (k : Kernel P.pool V)
    (hk : ∀ a ∈ k.footprint, a.pool ∈ ps) :
    Within ps (k.footprint.foldl (applyAccess k.gpu) (transfers k.gpu k.footprint c).2) ∧
    Bounds (accesses P [k]) c
      (k.footprint.foldl (applyAccess k.gpu) (transfers k.gpu k.footprint c).2) := by
  obtain ⟨hw, hcl⟩ := transfers_cleared hps k.gpu k.footprint hc hk
  generalize (transfers k.gpu k.footprint c).2 = c₁ at hw hcl
  obtain ⟨hw', happly⟩ := get_applyAll hps k.gpu k.footprint hw hk
  have hacc : accesses P [k] = k.footprint.map fun a => (k.gpu, a) := by simp [accesses]
  rw [hacc]
  have hmark {sel : Bool × Access → Bool} {a : Access} {q : String} (ha : a ∈ k.footprint)
      (hq : a.pool = q) (hsel : sel (k.gpu, a) = true) :
      Marked sel (k.footprint.map fun a => (k.gpu, a)) q :=
    ⟨(k.gpu, a), List.mem_map_of_mem ha, hsel, hq⟩
  refine ⟨hw', fun q hq => ?_, fun q hq => ?_, fun q hq => ?_, fun q hq => ?_, fun q hq hno => ?_⟩
  · rw [(happly q).1] at hq
    cases hgpu : k.gpu with
    | true =>
      rw [hgpu, if_pos rfl] at hq
      rcases hq with hq | ⟨a, ha, hpool, hwrite⟩
      · exact .inl ((hcl.le q).1 hq)
      · rw [← hgpu]
        exact .inr (hmark ha hpool (by simp [gpuWrites, hgpu, hwrite]))
    | false =>
      rw [hgpu, if_neg Bool.false_ne_true] at hq
      exact .inl ((hcl.le q).1 hq.1)
  · rw [(happly q).2.1] at hq
    cases hgpu : k.gpu with
    | true =>
      rw [hgpu, if_pos rfl] at hq
      exact .inl ((hcl.le q).2.1 hq.1)
    | false =>
      rw [hgpu, if_neg Bool.false_ne_true] at hq
      rcases hq with hq | ⟨a, ha, hpool, hwrite⟩
      · exact .inl ((hcl.le q).2.1 hq)
      · rw [← hgpu]
        exact .inr (hmark ha hpool (by simp [hostWrites, hgpu, hwrite]))
  · rw [(happly q).2.2] at hq
    rcases hq with hq | ⟨hgpu, a, ha, hpool⟩
    · exact .inl ((hcl.le q).2.2 hq)
    · exact .inr (hmark ha hpool (by simp [gpuTouches, hgpu, k.all_read hgpu a ha]))
  · rw [(happly q).2.2]
    exact .inl (hcl.seen q hq)
  · rw [(happly q).2.1]
    cases hgpu : k.gpu with
    | true =>
      have hnone (a) (ha : a ∈ k.footprint) : a.pool ≠ q := fun hpool =>
        hno (hmark ha hpool (by simp [gpuTouches, hgpu, k.all_read hgpu a ha]))
      rw [if_pos rfl]
      rw [hgpu] at hcl
      exact ⟨hcl.host q hq (.inr hnone), fun ⟨a, ha, hpool, _⟩ => hnone a ha hpool⟩
    | false =>
      rw [if_neg Bool.false_ne_true]
      rw [hgpu] at hcl
      exact .inl (hcl.host q hq (.inl rfl))

/-- The loop sets of a part of the schedule have pools of the schedule. -/
theorem collectLoopSets_subset (hps : ps.length ≤ 128) {t : Tree} (ht : poolsOf P t ⊆ ps) :
    (collectLoopSets P t).gwrite ⊆ ps ∧ (collectLoopSets P t).gtouch ⊆ ps ∧
      (collectLoopSets P t).hwrite ⊆ ps := by
  have hmarked {sel : Bool × Access → Bool} {q : String}
      (h : Marked sel (accesses P (kernels P t)) q) : q ∈ ps := by
    obtain ⟨x, hx, -, rfl⟩ := h
    exact ht (accesses_pool hx)
  exact ⟨fun q hq => hmarked ((mem_collectLoopSets hps ht q).1.mp hq),
    fun q hq => hmarked ((mem_collectLoopSets hps ht q).2.1.mp hq),
    fun q hq => hmarked ((mem_collectLoopSets hps ht q).2.2.mp hq)⟩

/-- The table at the entry of a loop. -/
theorem loop_entry (hps : ps.length ≤ 128) (hc : Within ps c) {t : Tree} (ht : poolsOf P t ⊆ ps) :
    let ls := collectLoopSets P t
    let c' := ((c.seed ls).seedSeen ls).resetRuns
    Within ps c' ∧ ∀ q,
      ((c'.get q).dirtyGpu = true ↔
        (c.get q).dirtyGpu = true ∨ Marked gpuWrites (accesses P (kernels P t)) q) ∧
      ((c'.get q).dirtyHost = true ↔
        (c.get q).dirtyHost = true ∨ Marked hostWrites (accesses P (kernels P t)) q) ∧
      ((c'.get q).gpuSeen = true ↔
        (c.get q).gpuSeen = true ∨ Marked gpuTouches (accesses P (kernels P t)) q) := by
  dsimp only
  obtain ⟨hg, htouch, hh⟩ := collectLoopSets_subset hps ht
  obtain ⟨hw₁, hseed⟩ := get_seed hps hc hg hh
  obtain ⟨hw₂, hseen⟩ := get_seedSeen hps hw₁ htouch
  refine ⟨within_map hw₂ fun _ e => { e with gpuRun := 0 }, fun q => ?_⟩
  obtain ⟨m₁, m₂, m₃⟩ := mem_collectLoopSets hps ht q
  rw [get_resetRuns, ← m₁, ← m₂, ← m₃]
  refine ⟨?_, ?_, ?_⟩
  · exact (hseen q).1 ▸ (hseed q).1
  · exact (hseen q).2.1 ▸ (hseed q).2.1
  · exact (hseen q).2.2.trans (or_congr_left (hseed q).2.2)

/-- The table at the entry of the body of a `when`. -/
theorem when_entry (hps : ps.length ≤ 128) (hc : Within ps c) {t : Tree} (ht : poolsOf P t ⊆ ps) :
    let c' := (c.flush.2.seed (collectLoopSets P t)).resetRuns
    Within ps c.flush.2 ∧ Within ps c' ∧ ∀ q,
      ((c'.get q).dirtyGpu = true ↔ Marked gpuWrites (accesses P (kernels P t)) q) ∧
      ((c'.get q).dirtyHost = true ↔
        (c.get q).dirtyHost = true ∨ Marked hostWrites (accesses P (kernels P t)) q) ∧
      ((c'.get q).gpuSeen = true ↔ (c.get q).gpuSeen = true) := by
  dsimp only
  obtain ⟨hg, -, hh⟩ := collectLoopSets_subset hps ht
  have hflush : Within ps c.flush.2 := within_map hc fun _ e => { e with dirtyGpu := false }
  obtain ⟨hw, hseed⟩ := get_seed hps hflush hg hh
  refine ⟨hflush, within_map hw fun _ e => { e with gpuRun := 0 }, fun q => ?_⟩
  obtain ⟨m₁, -, m₃⟩ := mem_collectLoopSets hps ht q
  obtain ⟨h₁, h₂, h₃⟩ := hseed q
  rw [get_flush] at h₁ h₂ h₃
  rw [get_resetRuns, ← m₁, ← m₃]
  exact ⟨h₁.trans (or_iff_right Bool.false_ne_true), h₂, h₃⟩

/-- The table after the body of a loop or a `when`. -/
theorem body_exit (hps : ps.length ≤ 128) (hc : Within ps c) {t : Tree} (ht : poolsOf P t ⊆ ps) :
    let c' := c.seed (collectLoopSets P t)
    Within ps c' ∧ ∀ q,
      ((c'.get q).dirtyGpu = true ↔
        (c.get q).dirtyGpu = true ∨ Marked gpuWrites (accesses P (kernels P t)) q) ∧
      ((c'.get q).dirtyHost = true ↔
        (c.get q).dirtyHost = true ∨ Marked hostWrites (accesses P (kernels P t)) q) ∧
      ((c'.get q).gpuSeen = true ↔ (c.get q).gpuSeen = true) := by
  dsimp only
  obtain ⟨hg, -, hh⟩ := collectLoopSets_subset hps ht
  obtain ⟨hw, hseed⟩ := get_seed hps hc hg hh
  refine ⟨hw, fun q => ?_⟩
  obtain ⟨m₁, -, m₃⟩ := mem_collectLoopSets hps ht q
  rw [← m₁, ← m₃]
  exact hseed q

mutual

/-- What the pass does to the table on its way through a part of the schedule. -/
theorem process_bounds (hps : ps.length ≤ 128) (t : Tree) {c : Coh} (hc : Within ps c)
    (ht : poolsOf P t ⊆ ps) : Within ps (processChild P t c).2 ∧
      Bounds (accesses P (kernels P t)) c (processChild P t c).2 := by
  cases t with
  | run sym =>
    unfold processChild kernels
    unfold poolsOf at ht
    cases hk : P.findScheduledDecl sym with
    | none => exact ⟨hc, .refl _ c⟩
    | some k =>
      rw [hk] at ht
      exact step_bounds hps hc k fun a ha => ht (List.mem_map_of_mem ha)
  | halt => exact ⟨hc, .refl _ c⟩
  | gpuSync sym =>
    cases sym with
    | none => exact ⟨hc, .refl _ c⟩
    | some sym =>
      have hp : P.canonicalArchName sym ∈ ps := ht (by simp [poolsOf])
      have hget := get_modify hc hps hp fun e => { e with dirtyGpu := false, gpuRun := 0 }
      have hle (q) : ((processChild P (.gpuSync (some sym)) c).2.get q).Le (c.get q) ∧
          (c.get q).dirtyHost = ((processChild P (.gpuSync (some sym)) c).2.get q).dirtyHost ∧
          (c.get q).gpuSeen = ((processChild P (.gpuSync (some sym)) c).2.get q).gpuSeen := by
        unfold processChild
        rw [hget]
        split
        · next h =>
          subst h
          exact ⟨⟨nofun, id, id⟩, rfl, rfl⟩
        · exact ⟨.refl _, rfl, rfl⟩
      refine ⟨?_, fun q hq => .inl ((hle q).1.1 hq), fun q hq => .inl ((hle q).1.2.1 hq),
        fun q hq => .inl ((hle q).1.2.2 hq), fun q hq => (hle q).2.2 ▸ hq,
        fun q hq _ => (hle q).2.1 ▸ hq⟩
      unfold processChild
      exact within_modify hc hp fun e => { e with dirtyGpu := false, gpuRun := 0 }
  | seq ts =>
    unfold processChild kernels
    exact processSeq_bounds hps ts hc (by simpa only [poolsOf] using ht)
  | par ts =>
    unfold processChild kernels
    exact processSeq_bounds hps ts hc (by simpa only [poolsOf] using ht)
  | loop t =>
    have ht' : poolsOf P t ⊆ ps := by simpa only [poolsOf] using ht
    obtain ⟨hw, hentry⟩ := loop_entry hps hc ht'
    obtain ⟨hw', hbody⟩ := process_bounds hps t hw ht'
    obtain ⟨hw'', hexit⟩ := body_exit hps hw' ht'
    unfold processChild kernels
    refine ⟨hw'', fun q hq => ?_, fun q hq => ?_, fun q hq => ?_, fun q hq => ?_, fun q hq hno => ?_⟩
    · rw [(hexit q).1] at hq
      exact hq.elim (fun h => (hbody.gpu q h).elim (hentry q).1.mp .inr) .inr
    · rw [(hexit q).2.1] at hq
      exact hq.elim (fun h => (hbody.host q h).elim (hentry q).2.1.mp .inr) .inr
    · rw [(hexit q).2.2] at hq
      exact (hbody.seen q hq).elim (hentry q).2.2.mp .inr
    · rw [(hexit q).2.2]
      exact hbody.seen_kept q ((hentry q).2.2.mpr (.inl hq))
    · rw [(hexit q).2.1]
      exact .inl (hbody.host_kept q ((hentry q).2.1.mpr (.inl hq)) hno)
  | whenT sym t =>
    have ht' : poolsOf P t ⊆ ps := by simpa only [poolsOf] using ht
    obtain ⟨-, hw, hentry⟩ := when_entry hps hc ht'
    obtain ⟨hw', hbody⟩ := process_bounds hps t hw ht'
    obtain ⟨hw'', hexit⟩ := body_exit hps hw' ht'
    unfold processChild kernels
    refine ⟨hw'', fun q hq => ?_, fun q hq => ?_, fun q hq => ?_, fun q hq => ?_, fun q hq hno => ?_⟩
    · rw [(hexit q).1] at hq
      exact .inr (hq.elim (fun h => (hbody.gpu q h).elim (hentry q).1.mp id) id)
    · rw [(hexit q).2.1] at hq
      exact hq.elim (fun h => (hbody.host q h).elim (hentry q).2.1.mp .inr) .inr
    · rw [(hexit q).2.2] at hq
      exact (hbody.seen q hq).imp (hentry q).2.2.mp id
    · rw [(hexit q).2.2]
      exact hbody.seen_kept q ((hentry q).2.2.mpr hq)
    · rw [(hexit q).2.1]
      exact .inl (hbody.host_kept q ((hentry q).2.1.mpr (.inl hq)) hno)

theorem processSeq_bounds (hps : ps.length ≤ 128) (ts : List Tree) {c : Coh} (hc : Within ps c)
    (ht : poolsOfAll P ts ⊆ ps) : Within ps (processSeq P ts c).2 ∧
      Bounds (accesses P (kernelsAll P ts)) c (processSeq P ts c).2 := by
  cases ts with
  | nil => exact ⟨hc, .refl _ c⟩
  | cons t ts =>
    rw [poolsOfAll, List.append_subset] at ht
    obtain ⟨hw, hbounds⟩ := process_bounds hps t hc ht.1
    obtain ⟨hw', hbounds'⟩ := processSeq_bounds hps ts hw ht.2
    unfold processSeq kernelsAll
    rw [accesses_append]
    exact ⟨hw', hbounds.trans hbounds'⟩

end

end Bounds

end Arche.Codegen.GpuCoherence
