import Arche.Codegen.CoherenceTables

/-!
# Runs in which the copies stay together

`Agrees` ties the flags of the pass at a point of the schedule to the two copies there:
a copy that is not the older one has the value of the run with all kernels on the host,
a column newer on the device is in a pool with `dirty_gpu` set, and a resident column
newer on the host is in one with `dirty_host` set. The pass keeps it through every step,
loop and branch, as long as no step of the run is one of these:

* an upload of a pool with a column that is newer on the device;
* a download of a dirty column that is newer on the host;
* a host step that overwrites a pool in part, without its being counted as read, while
  another column of the pool is newer on the device;
* a `when` that is skipped while a resident pool is newer on the host and the GPU, but
  no host step, would have touched it in the body.

1. `coherent_of_admitted`: in a run without these every kernel reads what it reads with
   all kernels on the host, and the host copies that are not the older ones are right.
2. `not_transparent`: a GPU step, and a loop of a GPU step and a host step. The upload
   that the loop needs in its second round undoes the first step.
-/

namespace Arche.Codegen.GpuCoherence

open Arche.Lib
open Arche.Semantic.Schedule (Tree)

variable {κ V : Type} (P : Program κ V)

/-! ## The steps of a run -/

mutual

def Out.kernels : Out → List (Kernel P.pool V)
  | .run sym => (P.findScheduledDecl sym).toList
  | .halt | .gpuSync _ | .gpuUpload _ => []
  | .seq ts | .par ts => Out.kernelsAll ts
  | .loop t | .whenT _ t => Out.kernels t

def Out.kernelsAll : List Out → List (Kernel P.pool V)
  | [] => []
  | t :: ts => Out.kernels t ++ Out.kernelsAll ts

end

/-- The step moves no older copy over a newer one, and the pass knows of every copy it makes older. -/
def Event.Admitted : Event κ V → Prop
  | .ran sym s => ∀ k, P.findScheduledDecl sym = some k → k.gpu = false →
      ∀ a ∈ k.footprint, a.isWrite = true → a.isRead = false →
        ∀ c, P.pool c = a.pool → s.newer c = .device → c ∈ k.writes
  | .synced p s => ∀ c, s.downloads P p c = true → s.newer c ≠ .host
  | .uploaded p s => ∀ c, s.uploads P p c = true → s.newer c ≠ .device
  | .tested _ body taken s => taken = false → ∀ c, (s.dev c).isSome = true → s.newer c = .host →
      Marked gpuTouches (accesses P (body.kernels P)) (P.pool c) →
        Marked hostWrites (accesses P (body.kernels P)) (P.pool c)

/-- The flags at a point of the schedule and the copies there, beside the memory `m` of the run with
all kernels on the host. -/
structure Agrees (resident : String → Bool) (F : String → Flags) (s : State κ V) (m : κ → V) :
    Prop where
  host : ∀ c, s.newer c ≠ .device → s.host c = m c
  dev : ∀ c, s.newer c ≠ .host → s.dev c = some (m c)
  gpuFlag : ∀ c, s.newer c = .device → (F (P.pool c)).dirtyGpu = true ∧ s.dirty c = true
  hostFlag : ∀ c, s.newer c = .host → (s.dev c).isSome = true → (F (P.pool c)).dirtyHost = true
  seen : ∀ c, (s.dev c).isSome = true → (F (P.pool c)).gpuSeen = true
  placed : ∀ c, (s.dev c).isSome = true → resident (P.pool c) = true

/-- The host copies that are not the older ones are right. -/
def HostRight (s : State κ V) (m : κ → V) : Prop := ∀ c, s.newer c ≠ .device → s.host c = m c

variable {P} {resident : String → Bool} {F F' : String → Flags} {s : State κ V} {m : κ → V}

namespace Agrees

theorem mono (h : Agrees P resident F s m) (hle : ∀ q, (F q).Le (F' q)) :
    Agrees P resident F' s m where
  host := h.host
  dev := h.dev
  gpuFlag c hc := ⟨(hle _).1 (h.gpuFlag c hc).1, (h.gpuFlag c hc).2⟩
  hostFlag c hc hd := (hle _).2.1 (h.hostFlag c hc hd)
  seen c hd := (hle _).2.2 (h.seen c hd)
  placed := h.placed

theorem newer_of_none (h : Agrees P resident F s m) {c : κ} (hd : s.dev c = none) :
    s.newer c = .host := by
  by_contra hne
  rw [h.dev c hne] at hd
  cases hd

theorem start (resident : String → Bool) (F : String → Flags) (m : κ → V) :
    Agrees P resident F (State.start m) m where
  host _ _ := rfl
  dev _ h := absurd rfl h
  gpuFlag _ h := nomatch h
  hostFlag _ _ h := nomatch h
  seen _ h := nomatch h
  placed _ h := nomatch h

theorem sync (h : Agrees P resident F s m) {p : String} (hadm : Event.Admitted P (.synced p s)) :
    Agrees P resident (fun q => if q = p then { F q with dirtyGpu := false } else F q)
      (s.sync P p) m where
  host c hc := by
    show (if s.downloads P p c then _ else _) = _
    by_cases hd : s.downloads P p c = true
    · rw [if_pos hd, h.dev c (hadm c hd)]
      rfl
    · rw [if_neg hd]
      refine h.host c fun hn => hc ?_
      rw [← hn]
      exact if_neg hd
  dev c hc := by
    show s.dev c = _
    refine h.dev c ?_
    by_cases hd : s.downloads P p c = true
    · exact hadm c hd
    · intro hn
      exact hc ((if_neg hd).trans hn)
  gpuFlag c hc := by
    have hd : s.downloads P p c ≠ true := fun hd => nomatch (if_pos hd).symm.trans hc
    have hn : s.newer c = .device := (if_neg hd).symm.trans hc
    obtain ⟨hflag, hdirty⟩ := h.gpuFlag c hn
    have hdev : s.dev c = some (m c) := h.dev c (by rw [hn]; decide)
    have hpool : P.pool c ≠ p := by
      intro hp
      exact hd (by simp [State.downloads, hp, hdev, hdirty])
    refine ⟨?_, (if_neg hd).trans hdirty⟩
    rw [if_neg hpool]
    exact hflag
  hostFlag c hc hdev := by
    have hd : s.downloads P p c ≠ true := fun hd => nomatch (if_pos hd).symm.trans hc
    have hflag := h.hostFlag c ((if_neg hd).symm.trans hc) hdev
    split
    · exact hflag
    · exact hflag
  seen c hdev := by
    have hflag := h.seen c hdev
    split
    · exact hflag
    · exact hflag
  placed := h.placed

theorem upload_isSome (p : String) (s : State κ V) (c : κ) :
    ((s.upload P p).dev c).isSome = (s.dev c).isSome := by
  by_cases hu : s.uploads P p c = true
  · have hdev : (s.upload P p).dev c = some (s.host c) := if_pos hu
    simp only [State.uploads, Bool.and_eq_true] at hu
    rw [hdev, hu.2]
    rfl
  · have hdev : (s.upload P p).dev c = s.dev c := if_neg hu
    rw [hdev]

theorem upload (h : Agrees P resident F s m) {p : String} (hadm : Event.Admitted P (.uploaded p s)) :
    Agrees P resident (fun q => if q = p then { F q with dirtyHost := false } else F q)
      (s.upload P p) m where
  host c hc := by
    refine h.host c ?_
    by_cases hu : s.uploads P p c = true
    · exact hadm c hu
    · intro hn
      exact hc ((if_neg hu).trans hn)
  dev c hc := by
    show (if s.uploads P p c then _ else _) = _
    by_cases hu : s.uploads P p c = true
    · rw [if_pos hu, h.host c (hadm c hu)]
    · rw [if_neg hu]
      exact h.dev c fun hn => hc ((if_neg hu).trans hn)
  gpuFlag c hc := by
    have hu : s.uploads P p c ≠ true := fun hu => nomatch (if_pos hu).symm.trans hc
    obtain ⟨hflag, hdirty⟩ := h.gpuFlag c ((if_neg hu).symm.trans hc)
    refine ⟨?_, (if_neg hu).trans hdirty⟩
    split
    · exact hflag
    · exact hflag
  hostFlag c hc hdev := by
    have hu : s.uploads P p c ≠ true := fun hu => nomatch (if_pos hu).symm.trans hc
    rw [upload_isSome] at hdev
    have hpool : P.pool c ≠ p := by
      intro hp
      exact hu (by simp [State.uploads, hp, hdev])
    rw [if_neg hpool]
    exact h.hostFlag c ((if_neg hu).symm.trans hc) hdev
  seen c hdev := by
    rw [upload_isSome] at hdev
    have hflag := h.seen c hdev
    split
    · exact hflag
    · exact hflag
  placed c hdev := by
    rw [upload_isSome] at hdev
    exact h.placed c hdev

variable {k : Kernel P.pool V}

/-- The flags after a step, from those before it. -/
structure StepFlags (gpu : Bool) (fp : List Access) (F F' : String → Flags) : Prop where
  dirtyGpu : ∀ q, (F q).dirtyGpu = true → gpu = true ∨ ¬ Writes fp q → (F' q).dirtyGpu = true
  dirtyHost : ∀ q, (F q).dirtyHost = true → gpu = false ∨ ¬ Writes fp q → (F' q).dirtyHost = true
  seen : ∀ q, (F q).gpuSeen = true → (F' q).gpuSeen = true
  wrote : ∀ q, Writes fp q → if gpu then (F' q).dirtyGpu = true else (F' q).dirtyHost = true
  touched : gpu = true → ∀ a ∈ fp, (F' a.pool).gpuSeen = true

theorem writes_of_mem {c : κ} (hc : c ∈ k.writes) : Writes k.footprint (P.pool c) :=
  k.writes_covered c hc

/-- A host step after its downloads. -/
theorem host_reads (h : Agrees P resident F s m)
    (hclean : ∀ a ∈ k.footprint, a.isRead = true → (F a.pool).Clean false) {c : κ}
    (hc : c ∈ k.reads) : s.host c = m c := by
  obtain ⟨a, ha, hpool, hread⟩ := k.reads_covered c hc
  refine h.host c fun hn => ?_
  have hflag := (h.gpuFlag c hn).1
  have hoff : (F a.pool).dirtyGpu = false := hclean a ha hread
  rw [← hpool, hoff] at hflag
  cases hflag

section Dispatch

variable (hclean : ∀ a ∈ k.footprint, a.isRead = true → (F a.pool).Clean true)

include hclean

/-- After the uploads of a GPU step no resident column of its pools is newer on the host. -/
theorem not_host_newer (h : Agrees P resident F s m) (hgpu : k.gpu = true) {c : κ} {a : Access}
    (ha : a ∈ k.footprint) (hpool : a.pool = P.pool c) (hdev : (s.dev c).isSome = true) :
    s.newer c ≠ .host := by
  intro hn
  have hoff : (F a.pool).gpuSeen = false :=
    hclean a ha (k.all_read hgpu a ha) (hpool ▸ h.hostFlag c hn hdev)
  have hseen := h.seen c hdev
  rw [← hpool, hoff] at hseen
  cases hseen

theorem onDevice_eq (h : Agrees P resident F s m) (hgpu : k.gpu = true) {c : κ} (hc : c ∈ k.cols) :
    s.onDevice P resident c = m c := by
  obtain ⟨a, ha, hpool⟩ := k.selected hgpu c hc
  have hhost (hnone : s.dev c = none) : s.host c = m c :=
    h.host c (by rw [h.newer_of_none hnone]; decide)
  unfold State.onDevice
  split
  · cases hdev : s.dev c with
    | none => exact hhost hdev
    | some v =>
      have hv := h.dev c (not_host_newer hclean h hgpu ha hpool (by rw [hdev]; rfl))
      rw [hdev] at hv
      exact Option.some.inj hv
  · next hres =>
    refine hhost (Option.not_isSome_iff_eq_none.mp fun hdev => hres (h.placed c hdev))

variable [DecidableEq κ]

theorem result_eq (h : Agrees P resident F s m) (hgpu : k.gpu = true) {c : κ} (hc : c ∈ k.cols) :
    k.result P (s.onDevice P resident) c = k.result P m c := by
  unfold Kernel.result
  split
  · next hw =>
    exact k.uses _ _ (fun d hd => onDevice_eq hclean h hgpu (k.bound hgpu d (.inl hd))) c hw
  · exact onDevice_eq hclean h hgpu hc

theorem dispatch (h : Agrees P resident F s m) (hgpu : k.gpu = true)
    (hF : StepFlags true k.footprint F F') :
    Agrees P resident F' (s.dispatch P resident k) (k.result P m) := by
  have hout {c : κ} (hc : c ∉ k.cols) : k.result P m c = m c :=
    if_neg fun hw => hc (k.bound hgpu c (.inr hw))
  -- the columns the dispatch leaves in their buffers, and all others
  have hcase (c : κ) : (c ∈ k.cols ∧ resident (P.pool c) = true) ∨
      ¬ (c ∈ k.cols ∧ resident (P.pool c) = true) := em _
  have hnewer {c : κ} (hc : ¬ (c ∈ k.cols ∧ resident (P.pool c) = true)) :
      (s.dispatch P resident k).newer c = s.newer c := if_neg hc
  have hdev {c : κ} (hc : ¬ (c ∈ k.cols ∧ resident (P.pool c) = true)) :
      (s.dispatch P resident k).dev c = s.dev c := if_neg hc
  have hbound {c : κ} (hc : c ∈ k.cols ∧ resident (P.pool c) = true) :
      (s.dispatch P resident k).newer c =
        if c ∈ k.writes then .device else if (s.dev c).isNone then .same else s.newer c := if_pos hc
  refine ⟨fun c hn => ?_, fun c hn => ?_, fun c hn => ?_, fun c hn hd => ?_, fun c hd => ?_,
    fun c hd => ?_⟩
  · show (if c ∈ k.cols ∧ resident (P.pool c) = false then _ else _) = _
    rcases hcase c with hc | hc
    · have hres : ¬ (c ∈ k.cols ∧ resident (P.pool c) = false) := fun h' =>
        Bool.eq_false_iff.mp h'.2 hc.2
      rw [hbound hc] at hn
      rw [if_neg hres]
      have hw : c ∉ k.writes := fun hw => hn (if_pos hw)
      rw [if_neg hw] at hn
      rw [Kernel.result, if_neg hw]
      cases hd : s.dev c with
      | none => exact h.host c (by rw [h.newer_of_none hd]; decide)
      | some v =>
        rw [hd] at hn
        exact h.host c hn
    · rw [hnewer hc] at hn
      split
      · next hcol => exact result_eq hclean h hgpu hcol.1
      · next hcol =>
        have hnot : c ∉ k.cols := fun hmem => by
          cases hres : resident (P.pool c) with
          | true => exact hc ⟨hmem, hres⟩
          | false => exact hcol ⟨hmem, hres⟩
        rw [hout hnot]
        exact h.host c hn
  · rcases hcase c with hc | hc
    · have hset : (s.dispatch P resident k).dev c =
          some (k.result P (s.onDevice P resident) c) := if_pos hc
      rw [hset, result_eq hclean h hgpu hc.1]
    · rw [hnewer hc] at hn
      have hsome := h.dev c hn
      have hnot : c ∉ k.cols := fun hmem => hc ⟨hmem, h.placed c (by rw [hsome]; rfl)⟩
      rw [hdev hc, hsome, hout hnot]
  · rcases hcase c with hc | hc
    · refine ⟨?_, if_pos hc⟩
      rw [hbound hc] at hn
      split at hn
      · next hw => exact hF.wrote _ (writes_of_mem hw)
      · split at hn
        · cases hn
        · exact hF.dirtyGpu _ (h.gpuFlag c hn).1 (.inl rfl)
    · rw [hnewer hc] at hn
      exact ⟨hF.dirtyGpu _ (h.gpuFlag c hn).1 (.inl rfl), (if_neg hc).trans (h.gpuFlag c hn).2⟩
  · rcases hcase c with hc | hc
    · exfalso
      rw [hbound hc] at hn
      split at hn
      · cases hn
      · split at hn
        · cases hn
        · next hsome =>
          obtain ⟨a, ha, hpool⟩ := k.selected hgpu c hc.1
          refine not_host_newer hclean h hgpu ha hpool ?_ hn
          rwa [Option.isNone_iff_eq_none, ← ne_eq, Option.ne_none_iff_isSome] at hsome
    · rw [hnewer hc] at hn
      rw [hdev hc] at hd
      refine hF.dirtyHost _ (h.hostFlag c hn hd) (.inr ?_)
      rintro ⟨a, ha, hpool, -⟩
      exact not_host_newer hclean h hgpu ha hpool hd hn
  · rcases hcase c with hc | hc
    · obtain ⟨a, ha, hpool⟩ := k.selected hgpu c hc.1
      exact hpool ▸ hF.touched rfl a ha
    · rw [hdev hc] at hd
      exact hF.seen _ (h.seen c hd)
  · rcases hcase c with hc | hc
    · exact hc.2
    · rw [hdev hc] at hd
      exact h.placed c hd

end Dispatch

theorem runHost [DecidableEq κ] (h : Agrees P resident F s m) {sym : String} (hk : P.findScheduledDecl sym = some k)
    (hhost : k.gpu = false) (hclean : ∀ a ∈ k.footprint, a.isRead = true → (F a.pool).Clean false)
    (hadm : Event.Admitted P (.ran sym s)) (hF : StepFlags false k.footprint F F') :
    Agrees P resident F' (s.runHost P k) (k.result P m) where
  host c hc := by
    show k.result P s.host c = _
    unfold Kernel.result
    split
    · next hw => exact k.uses s.host m (fun d hd => host_reads h hclean hd) c hw
    · next hw => exact h.host c fun hn => hc ((if_neg hw).trans hn)
  dev c hc := by
    have hw : c ∉ k.writes := fun hw => hc (if_pos hw)
    show s.dev c = _
    rw [h.dev c fun hn => hc ((if_neg hw).trans hn), Kernel.result, if_neg hw]
  gpuFlag c hc := by
    have hw : c ∉ k.writes := fun hw => nomatch (if_pos hw).symm.trans hc
    have hn : s.newer c = .device := (if_neg hw).symm.trans hc
    refine ⟨hF.dirtyGpu _ (h.gpuFlag c hn).1 (.inr ?_), (h.gpuFlag c hn).2⟩
    rintro ⟨a, ha, hpool, hwrite⟩
    cases hread : a.isRead with
    | true =>
      have hoff : (F a.pool).dirtyGpu = false := hclean a ha hread
      have hflag := (h.gpuFlag c hn).1
      rw [← hpool, hoff] at hflag
      cases hflag
    | false => exact hw (hadm k hk hhost a ha hwrite hread c hpool.symm hn)
  hostFlag c hc hdev := by
    by_cases hw : c ∈ k.writes
    · exact hF.wrote _ (writes_of_mem hw)
    · exact hF.dirtyHost _ (h.hostFlag c ((if_neg hw).symm.trans hc) hdev) (.inl rfl)
  seen c hdev := hF.seen _ (h.seen c hdev)
  placed := h.placed

end Agrees

/-! ## The shape of the output -/

section Shape

theorem kernelsAll_append (xs ys : List Out) :
    Out.kernelsAll P (xs ++ ys) = Out.kernelsAll P xs ++ Out.kernelsAll P ys := by
  induction xs with
  | nil => rfl
  | cons x xs ih =>
    rw [List.cons_append, Out.kernelsAll, Out.kernelsAll, ih, List.append_assoc]

theorem kernelsAll_syncs (l : List String) :
    Out.kernelsAll P (l.map fun p => .gpuSync (some p)) = [] := by
  induction l with
  | nil => rfl
  | cons p l ih => rw [List.map_cons, Out.kernelsAll, ih]; rfl

theorem kernelsAll_transfers (gpu : Bool) (as : List Access) (c : Coh) :
    Out.kernelsAll P (transfers gpu as c).1 = [] := by
  induction as generalizing c with
  | nil => rfl
  | cons a as ih =>
    unfold transfers
    split
    · exact ih c
    · dsimp only
      split
      · rw [Out.kernelsAll, ih]; rfl
      · split
        · rw [Out.kernelsAll, ih]; rfl
        · exact ih _

theorem kernels_pack (xs : List Out) : (pack xs).kernels P = Out.kernelsAll P xs := by
  match xs with
  | [] => rfl
  | [x] => rw [pack, Out.kernelsAll, Out.kernelsAll, List.append_nil]
  | x :: y :: xs => rfl

/-- What `cg_coh_process_child` puts before a `when` are downloads. -/
theorem flush_eq (c : Coh) :
    c.flush.1 = ((c.entries.filter fun e => e.2.dirtyGpu).map Prod.fst).map fun p =>
      .gpuSync (some p) := by
  rw [List.map_map]
  rfl

mutual

/-- The pass keeps the kernels. -/
theorem kernels_process (t : Tree) (c : Coh) :
    Out.kernelsAll P (processChild P t c).1 = kernels P t := by
  cases t with
  | run sym =>
    unfold processChild kernels
    cases hk : P.findScheduledDecl sym with
    | none => simp [Out.kernelsAll, Out.kernels, hk]
    | some k =>
      dsimp only
      rw [kernelsAll_append, kernelsAll_transfers]
      simp [Out.kernelsAll, Out.kernels, hk]
  | halt => rfl
  | gpuSync sym => cases sym <;> rfl
  | seq ts =>
    unfold processChild kernels
    rw [Out.kernelsAll, Out.kernels, kernels_processSeq]
    exact List.append_nil _
  | par ts =>
    unfold processChild kernels
    rw [Out.kernelsAll, Out.kernels, kernels_processSeq]
    exact List.append_nil _
  | loop t =>
    unfold processChild kernels
    rw [Out.kernelsAll, Out.kernels, kernels_pack, kernels_process]
    exact List.append_nil _
  | whenT sym t =>
    unfold processChild kernels
    dsimp only
    rw [kernelsAll_append, flush_eq, kernelsAll_syncs, Out.kernelsAll, Out.kernels, kernels_pack,
      kernels_process]
    exact List.append_nil _

theorem kernels_processSeq (ts : List Tree) (c : Coh) :
    Out.kernelsAll P (processSeq P ts c).1 = kernelsAll P ts := by
  cases ts with
  | nil => rfl
  | cons t ts =>
    unfold processSeq kernelsAll
    dsimp only
    rw [kernelsAll_append, kernels_process, kernels_processSeq]

end

variable [DecidableEq κ] {o : Lib.Outcome} {s' : State κ V} {es : List (Event κ V)}

theorem pathAll_append (xs ys : List Out) {s s' : State κ V} {o : Lib.Outcome} {es : List (Event κ V)}
    (h : Out.pathAll P resident (xs ++ ys) s o s' es) :
    Path.seq (Out.pathAll P resident xs) (Out.pathAll P resident ys) s o s' es := by
  induction xs generalizing s o s' es with
  | nil => exact Path.skip_seq h
  | cons x xs ih =>
    rw [List.cons_append, Out.pathAll] at h
    rw [Out.pathAll]
    exact Path.seq_assoc (Path.seq_mono (fun _ _ _ _ h => h) (fun _ _ _ _ h => ih h) h)

theorem pathAll_single {x : Out} (h : Out.pathAll P resident [x] s o s' es) :
    x.path P resident s o s' es := by
  rw [Out.pathAll, Out.pathAll] at h
  exact Path.of_seq_skip h

theorem pathAll_snoc {xs : List Out} {x : Out} (h : Out.pathAll P resident (xs ++ [x]) s o s' es) :
    Path.seq (Out.pathAll P resident xs) (x.path P resident) s o s' es :=
  Path.seq_mono (fun _ _ _ _ h => h) (fun _ _ _ _ h => pathAll_single h) (pathAll_append xs [x] h)

theorem pack_path {xs : List Out} (h : (pack xs).path P resident s o s' es) :
    Out.pathAll P resident xs s o s' es := by
  match xs with
  | [] =>
    have hpack : pack [] = .seq [] := rfl
    rwa [hpack, Out.path] at h
  | [x] =>
    rw [Out.pathAll, Out.pathAll]
    exact Path.seq_skip h
  | x :: y :: xs =>
    have hpack : pack (x :: y :: xs) = .seq (x :: y :: xs) := rfl
    rwa [hpack, Out.path] at h

end Shape

/-! ## The pass, step by step -/

section Steps

theorem sync_follows {F F' : String → Flags} (sym : String) {p : String}
    (hcan : P.canonicalArchName sym = p)
    (hle : ∀ q, (if q = p then { F q with dirtyGpu := false } else F q : Flags).Le (F' q)) :
    Simulates (Event.Admitted P) (Event.keep P resident) (Agrees P resident F)
      (emitSync P (some sym)) Path.skip (Agrees P resident F') HostRight := by
  refine Simulates.silent fun s m h hadm => ⟨rfl, ?_⟩
  rw [hcan] at hadm ⊢
  exact (h.sync (hadm _ List.mem_cons_self)).mono hle

variable [DecidableEq κ] {ps : List String} {c : Coh}

variable (resident) in
/-- A part of the output does what a part of the schedule does. -/
def Follows (P : Program κ V) (c c' : Coh)
    (p : Path (State κ V) (Event κ V)) (q : Path (κ → V) (Obs V)) : Prop :=
  Simulates (Event.Admitted P) (Event.keep P resident) (Agrees P resident c.get) p q
    (Agrees P resident c'.get) HostRight

theorem transfers_follow (hps : ps.length ≤ 128) (hcan : ∀ p ∈ ps, P.canonicalArchName p = p)
    (gpu : Bool) (as : List Access) {c : Coh} (hc : Within ps c) (has : ∀ a ∈ as, a.pool ∈ ps) :
    Follows resident P c (transfers gpu as c).2 (Out.pathAll P resident (transfers gpu as c).1)
      Path.skip := by
  induction as generalizing c with
  | nil => exact Simulates.skip fun s m h => h
  | cons a as ih =>
    have ha : a.pool ∈ ps := has a List.mem_cons_self
    have hrest (b) (hb : b ∈ as) := has b (List.mem_cons_of_mem _ hb)
    have htouch := within_modify hc ha id
    have hkeep (q : String) : (c.modify a.pool id).get q = c.get q := get_touch hc hps ha q
    unfold transfers
    split
    · exact ih hc hrest
    · dsimp only
      split
      · rw [Out.pathAll]
        refine Simulates.before (sync_follows _ (hcan _ ha) fun q => ?_)
          (ih (within_modify htouch ha _) hrest)
        rw [get_modify htouch hps ha, hkeep, hkeep]
        split
        · next h => rw [h]; exact ⟨id, id, id⟩
        · exact .refl _
      · split
        · rw [Out.pathAll]
          refine Simulates.before (Simulates.silent fun s m h hadm => ⟨rfl, ?_⟩)
            (ih (within_modify htouch ha _) hrest)
          rw [hcan _ ha] at hadm ⊢
          refine (h.upload (hadm _ List.mem_cons_self)).mono fun q => ?_
          rw [get_modify htouch hps ha, hkeep, hkeep]
          split
          · next h => rw [h]; exact ⟨id, id, id⟩
          · exact .refl _
        · refine Simulates.conseq (ih htouch hrest) (fun s m h => ?_) (fun s m h => h)
            (fun s m h => h)
          exact h.mono fun q => (hkeep q).symm ▸ .refl _

theorem syncs_follow (hcan : ∀ p ∈ ps, P.canonicalArchName p = p) (l : List String)
    (hl : ∀ p ∈ l, p ∈ ps) {F F' : String → Flags}
    (hle : ∀ q, (if q ∈ l then { F q with dirtyGpu := false } else F q : Flags).Le (F' q)) :
    Simulates (Event.Admitted P) (Event.keep P resident) (Agrees P resident F)
      (Out.pathAll P resident (l.map fun p => .gpuSync (some p))) Path.skip
      (Agrees P resident F') HostRight := by
  induction l generalizing F with
  | nil => exact Simulates.skip fun s m h => h.mono hle
  | cons p l ih =>
    rw [List.map_cons, Out.pathAll]
    refine Simulates.before (sync_follows p (hcan p (hl p List.mem_cons_self)) fun q => .refl _)
      (ih (fun q hq => hl q (List.mem_cons_of_mem _ hq)) fun q => Flags.Le.trans ?_ (hle q))
    by_cases hqp : q = p
    · simp only [hqp, List.mem_cons, true_or, if_true]
      split <;> exact ⟨id, id, id⟩
    · simp only [hqp, List.mem_cons, false_or, if_false]
      exact .refl _

/-- A dirty pool is flushed. -/
theorem mem_flushed {q : String} (h : (c.get q).dirtyGpu = true) :
    q ∈ (c.entries.filter fun e => e.2.dirtyGpu).map Prod.fst := by
  unfold Coh.get at h
  cases hlook : c.entries.lookup q with
  | none => rw [hlook] at h; cases h
  | some e =>
    rw [hlook] at h
    obtain ⟨l₁, l₂, hsplit, -⟩ := List.lookup_eq_some_iff.mp hlook
    refine List.mem_map.mpr ⟨(q, e), List.mem_filter.mpr ⟨?_, h⟩, rfl⟩
    rw [hsplit]
    exact List.mem_append_right _ List.mem_cons_self

theorem flush_follows (hcan : ∀ p ∈ ps, P.canonicalArchName p = p) (hc : Within ps c) :
    Follows resident P c c.flush.2 (Out.pathAll P resident c.flush.1) Path.skip := by
  rw [flush_eq]
  refine syncs_follow hcan _ (fun p hp => ?_) fun q => ?_
  · obtain ⟨e, he, rfl⟩ := List.mem_map.mp hp
    exact hc.sub e (List.mem_filter.mp he).1
  · rw [get_flush]
    split
    · exact .refl _
    · next hq => exact ⟨fun hd => absurd (mem_flushed hd) hq, id, id⟩

theorem stepFlags_of_apply (hps : ps.length ≤ 128) (gpu : Bool) {fp : List Access}
    (hc : Within ps c) (hfp : ∀ a ∈ fp, a.pool ∈ ps) :
    Agrees.StepFlags gpu fp c.get (fp.foldl (applyAccess gpu) c).get := by
  obtain ⟨-, h⟩ := get_applyAll hps gpu fp hc hfp
  refine ⟨fun q hq hor => (h q).1.mpr ?_, fun q hq hor => (h q).2.1.mpr ?_,
    fun q hq => (h q).2.2.mpr (.inl hq), fun q hw => ?_, fun hgpu a ha => ?_⟩
  · cases gpu with
    | true => exact .inl hq
    | false => exact ⟨hq, hor.resolve_left Bool.false_ne_true⟩
  · cases gpu with
    | true => exact ⟨hq, hor.resolve_left (by decide)⟩
    | false => exact .inl hq
  · cases gpu with
    | true => exact (h q).1.mpr (.inr hw)
    | false => exact (h q).2.1.mpr (.inr hw)
  · exact (h a.pool).2.2.mpr (.inr ⟨hgpu, a, ha, rfl⟩)

/-- A kernel after its transfers. -/
theorem run_follows (hps : ps.length ≤ 128) {sym : String} {k : Kernel P.pool V}
    (hk : P.findScheduledDecl sym = some k) (hc : Within ps c)
    (hfp : ∀ a ∈ k.footprint, a.pool ∈ ps)
    (hclean : ∀ a ∈ k.footprint, a.isRead = true → (c.get a.pool).Clean k.gpu) :
    Follows resident P c (k.footprint.foldl (applyAccess k.gpu) c) (emitRun P resident sym)
      (hostPath P (.run sym)) := by
  unfold emitRun hostPath
  rw [hk]
  refine Simulates.act fun s m h hadm => ?_
  have hflags := stepFlags_of_apply hps k.gpu hc hfp
  have hkeep (seen : κ → V) (hsees : s.sees P resident k = seen)
      (hseen : ∀ d ∈ k.reads, seen d = m d) :
      [Event.ran sym s].filterMap (Event.keep P resident) = [.ran sym (k.reads.map m)] := by
    simp only [Event.keep, hk, Option.map_some, List.filterMap_cons, List.filterMap_nil, hsees]
    rw [List.map_congr_left hseen]
  cases hgpu : k.gpu with
  | true =>
    rw [hgpu] at hclean hflags
    have hseen (d) (hd : d ∈ k.reads) : s.onDevice P resident d = m d :=
      Agrees.onDevice_eq hclean h hgpu (k.bound hgpu d (.inl hd))
    refine ⟨hkeep _ (if_pos hgpu) hseen, ?_⟩
    show Agrees P resident _ (if k.gpu then _ else _) _
    rw [if_pos hgpu]
    exact Agrees.dispatch hclean h hgpu hflags
  | false =>
    rw [hgpu] at hclean hflags
    have hoff : ¬ k.gpu = true := Bool.eq_false_iff.mp hgpu
    refine ⟨hkeep _ (if_neg hoff) fun d hd => h.host_reads hclean hd, ?_⟩
    show Agrees P resident _ (if k.gpu then _ else _) _
    rw [if_neg hoff]
    exact h.runHost hk hgpu hclean (hadm _ List.mem_cons_self) hflags

mutual

/-- The pass and the schedule, part by part. -/
theorem child_follows (hps : ps.length ≤ 128) (hcan : ∀ p ∈ ps, P.canonicalArchName p = p) (t : Tree)
    {c : Coh} (hc : Within ps c) (ht : poolsOf P t ⊆ ps) :
    Follows resident P c (processChild P t c).2 (Out.pathAll P resident (processChild P t c).1)
      (hostPath P t) := by
  cases t with
  | run sym =>
    cases hk : P.findScheduledDecl sym with
    | none =>
      unfold processChild hostPath
      rw [hk]
      refine Simulates.mono (Simulates.skip fun s m h => h) fun s o s' es h => ?_
      have h' := pathAll_single h
      rwa [Out.path, emitRun, hk] at h'
    | some k =>
      have hfp (a) (ha : a ∈ k.footprint) : a.pool ∈ ps := by
        rw [poolsOf, hk] at ht
        exact ht (List.mem_map_of_mem ha)
      obtain ⟨hw, hcl⟩ := transfers_cleared hps k.gpu k.footprint hc hfp
      unfold processChild
      rw [hk]
      refine Simulates.mono (Simulates.before (transfers_follow hps hcan k.gpu k.footprint hc hfp)
        (run_follows hps hk hw hfp hcl.clean)) fun s o s' es h => ?_
      have h' := pathAll_snoc h
      rwa [Out.path] at h'
  | halt =>
    unfold processChild hostPath
    refine Simulates.mono (Simulates.leave nofun fun s m h => h.host) fun s o s' es h => ?_
    have h' := pathAll_single h
    rwa [Out.path] at h'
  | gpuSync sym =>
    cases sym with
    | none =>
      unfold processChild hostPath
      refine Simulates.mono (Simulates.skip fun s m h => h) fun s o s' es h => ?_
      have h' := pathAll_single h
      rwa [Out.path] at h'
    | some sym =>
      have hp : P.canonicalArchName sym ∈ ps := ht (by simp [poolsOf])
      have hget := get_modify hc hps hp fun e => { e with dirtyGpu := false, gpuRun := 0 }
      unfold processChild hostPath
      refine Simulates.mono (sync_follows sym rfl fun q => ?_) fun s o s' es h => ?_
      · dsimp only
        rw [hget]
        split
        · next h => rw [h]; exact ⟨id, id, id⟩
        · exact .refl _
      · have h' := pathAll_single h
        rwa [Out.path] at h'
  | seq ts =>
    have hseq := seq_follows hps hcan ts hc (by simpa only [poolsOf] using ht)
    unfold processChild hostPath
    refine Simulates.mono hseq fun s o s' es h => ?_
    have h' := pathAll_single h
    rwa [Out.path] at h'
  | par ts =>
    have hseq := seq_follows hps hcan ts hc (by simpa only [poolsOf] using ht)
    unfold processChild hostPath
    refine Simulates.mono hseq fun s o s' es h => ?_
    have h' := pathAll_single h
    rwa [Out.path] at h'
  | loop t =>
    have ht' : poolsOf P t ⊆ ps := by simpa only [poolsOf] using ht
    obtain ⟨hw, hentry⟩ := loop_entry hps hc ht'
    have hbody := child_follows hps hcan t hw ht'
    obtain ⟨hw', hbounds⟩ := process_bounds hps t hw ht'
    obtain ⟨-, hexit⟩ := body_exit hps hw' ht'
    have hpack := Simulates.mono hbody fun s o s' es h => pack_path h
    unfold processChild hostPath
    dsimp only at hentry hbounds hexit hpack ⊢
    generalize ((c.seed (collectLoopSets P t)).seedSeen (collectLoopSets P t)).resetRuns = c₁ at *
    generalize processChild P t c₁ = r at *
    -- a round leaves no flag that was not set at the entry
    have hround : Follows resident P r.2 r.2 ((pack r.1).path P resident) (hostPath P t) :=
      Simulates.conseq hpack (fun s m h => h.mono fun q =>
        ⟨fun hq => (hbounds.gpu q hq).elim id fun hm => (hentry q).1.mpr (.inr hm),
        fun hq => (hbounds.host q hq).elim id fun hm => (hentry q).2.1.mpr (.inr hm),
        fun hq => (hbounds.seen q hq).elim id fun hm => (hentry q).2.2.mpr (.inr hm)⟩)
      (fun s m h => h) (fun s m h => h)
    have hloop := Simulates.seq hpack (Simulates.rounds hround fun s m h => h.host)
    refine Simulates.mono (Simulates.conseq hloop (fun s m h => h.mono fun q =>
        ⟨fun hq => (hentry q).1.mpr (.inl hq), fun hq => (hentry q).2.1.mpr (.inl hq),
        fun hq => (hentry q).2.2.mpr (.inl hq)⟩)
      (fun s m h => h.mono fun q => ⟨fun hq => (hexit q).1.mpr (.inl hq),
        fun hq => (hexit q).2.1.mpr (.inl hq), (hexit q).2.2.mpr⟩)
      (fun s m h => h)) fun s o s' es h => ?_
    have h' := pathAll_single h
    rwa [Out.path] at h'
  | whenT sym t =>
    have ht' : poolsOf P t ⊆ ps := by simpa only [poolsOf] using ht
    obtain ⟨hflush, hw, hentry⟩ := when_entry hps hc ht'
    have hbody := child_follows hps hcan t hw ht'
    obtain ⟨hw', hbounds⟩ := process_bounds hps t hw ht'
    obtain ⟨-, hexit⟩ := body_exit hps hw' ht'
    have hclean (q) : (c.flush.2.get q).dirtyGpu = false := by rw [get_flush]
    have hhost (q) : (c.flush.2.get q).dirtyHost = (c.get q).dirtyHost := by rw [get_flush]
    have hseen (q) : (c.flush.2.get q).gpuSeen = (c.get q).gpuSeen := by rw [get_flush]
    have hpack := Simulates.mono hbody fun s o s' es h => pack_path h
    unfold processChild hostPath
    dsimp only at hentry hbounds hexit hpack ⊢
    generalize (c.flush.2.seed (collectLoopSets P t)).resetRuns = c₁ at *
    generalize hr : processChild P t c₁ = r at *
    let test (taken : Bool) (s : State κ V) := (s, [Event.tested sym (pack r.1) taken s])
    refine Simulates.mono (Simulates.before (flush_follows hcan hc) (Simulates.choice
      (Simulates.seq (Simulates.act (f := test true) fun s m h _ => ⟨rfl, ?_⟩) (Simulates.conseq hpack
        (fun s m h => h) (fun s m h => ?_) (fun s m h => h)))
      (Simulates.act (f := test false) fun s m h hadm => ⟨rfl, ?_⟩))) fun s o s' es h => ?_
    · exact h.mono fun q => ⟨fun hd => absurd hd (Bool.eq_false_iff.mp (hclean q)),
        fun hd => (hentry q).2.1.mpr (.inl (hhost q ▸ hd)),
        fun hd => (hentry q).2.2.mpr (hseen q ▸ hd)⟩
    · exact h.mono fun q => ⟨fun hd => (hexit q).1.mpr (.inl hd),
        fun hd => (hexit q).2.1.mpr (.inl hd), (hexit q).2.2.mpr⟩
    · have hskip := hadm _ List.mem_cons_self rfl
      rw [kernels_pack, ← hr, kernels_process] at hskip
      refine ⟨h.host, h.dev, fun d hd => ?_, fun d hd hdev => ?_, fun d hdev => ?_, h.placed⟩
      · exact absurd (h.gpuFlag d hd).1 (Bool.eq_false_iff.mp (hclean _))
      · rw [(hexit _).2.1]
        by_cases htouch : Marked gpuTouches (accesses P (kernels P t)) (P.pool d)
        · exact .inr (hskip d hdev hd htouch)
        · refine .inl (hbounds.host_kept _ ((hentry _).2.1.mpr (.inl ?_)) htouch)
          rw [← hhost]
          exact h.hostFlag d hd hdev
      · rw [(hexit _).2.2]
        refine hbounds.seen_kept _ ((hentry _).2.2.mpr ?_)
        rw [← hseen]
        exact h.seen d hdev
    · have h' := pathAll_snoc h
      rwa [Out.path] at h'

theorem seq_follows (hps : ps.length ≤ 128) (hcan : ∀ p ∈ ps, P.canonicalArchName p = p)
    (ts : List Tree) {c : Coh} (hc : Within ps c) (ht : poolsOfAll P ts ⊆ ps) :
    Follows resident P c (processSeq P ts c).2 (Out.pathAll P resident (processSeq P ts c).1)
      (hostPathAll P ts) := by
  cases ts with
  | nil =>
    unfold processSeq hostPathAll
    exact Simulates.skip fun s m h => h
  | cons t ts =>
    rw [poolsOfAll, List.append_subset] at ht
    have hhead := child_follows hps hcan t hc ht.1
    have hrest := seq_follows hps hcan ts (process_bounds hps t hc ht.1).1 ht.2
    unfold processSeq hostPathAll
    exact Simulates.mono (Simulates.seq hhead hrest) fun s o s' es h => pathAll_append _ _ h

end

/-- In a run whose steps are all admitted, kernels on the GPU and on the host read what they read with
all kernels on the host, and a host copy that is not the older one is the one of that run. -/
theorem coherent_of_admitted (P : Program κ V) (t : Tree) (hroom : (poolsOf P t).eraseDups.length ≤ 128)
    {m : κ → V} {o : Lib.Outcome} {s : State κ V} {es : List (Event κ V)}
    (hrun : (coherencePass P t).path P (isResident P t) (State.start m) o s es)
    (hadm : ∀ e ∈ es, Event.Admitted P e) :
    ∃ m', hostPath P t m o m' (es.filterMap (Event.keep P (isResident P t))) ∧
      ∀ c, s.newer c ≠ .device → s.host c = m' c := by
  have hcan (p) (hp : p ∈ (poolsOf P t).eraseDups) : P.canonicalArchName p = p :=
    poolsOf_canonical (List.mem_eraseDups.mp hp)
  have hempty : Within (poolsOf P t).eraseDups Coh.empty := ⟨List.nodup_nil, nofun⟩
  obtain ⟨m', hhost, hnormal, hother⟩ := child_follows hroom hcan t hempty
    (fun p hp => List.mem_eraseDups.mpr hp) _ _ _ _ _ (Agrees.start _ _ m) (pack_path hrun) hadm
  refine ⟨m', hhost, ?_⟩
  by_cases ho : o = .normal
  · exact (hnormal ho).host
  · exact hother ho

end Steps

/-- A column that every kernel adds one to. -/
def exKernel (gpu : Bool) : Kernel (fun _ : Unit => "P") Nat where
  gpu := gpu
  footprint := [⟨"P", true, true⟩]
  cols := [()]
  reads := [()]
  writes := [()]
  body m c := m c + 1
  uses m m' h c hc := congrArg (· + 1) (h c hc)
  reads_covered c _ := ⟨_, List.mem_cons_self, rfl, rfl⟩
  writes_covered c _ := ⟨_, List.mem_cons_self, rfl, rfl⟩
  bound _ c _ := List.mem_cons_self
  selected _ c _ := ⟨_, List.mem_cons_self, rfl⟩
  all_read _ a ha := by
    cases List.mem_singleton.mp ha
    rfl

def exProgram : Program Unit Nat where
  pool _ := "P"
  kernels := [("g", exKernel true), ("h", exKernel false)]
  canonicalArchName := id
  annotated _ := false
  canonical _ _ _ _ := rfl
  idempotent _ := rfl

/-- Both copies of the one column. -/
def exState (host : Nat) (dev : Option Nat) (dirty : Bool) (newer : Newer) : State Unit Nat :=
  ⟨fun _ => host, fun _ => dev, fun _ => dirty, fun _ => newer⟩

theorem exProgram_gpu (hres : resident "P" = true) (host : Nat) (dev : Option Nat) (dirty : Bool)
    (newer : Newer) : emitRun exProgram resident "g" (exState host dev dirty newer) .normal
      (exState host (some (dev.getD host + 1)) true .device)
      [.ran "g" (exState host dev dirty newer)] := by
  refine ⟨rfl, ?_, rfl⟩
  show _ = (exState host dev dirty newer).dispatch exProgram resident (exKernel true)
  simp [State.dispatch, exProgram, hres, exKernel, exState, Kernel.result, State.onDevice]

theorem exProgram_host (host : Nat) (dev : Option Nat) (dirty : Bool) (newer : Newer) :
    emitRun exProgram resident "h" (exState host dev dirty newer) .normal
      (exState (host + 1) dev dirty .host) [.ran "h" (exState host dev dirty newer)] :=
  ⟨rfl, rfl, rfl⟩

theorem exProgram_sync (host v : Nat) (newer : Newer) :
    emitSync exProgram (some "P") (exState host (some v) true newer) .normal
      (exState v (some v) false .same) [.synced "P" (exState host (some v) true newer)] :=
  ⟨rfl, rfl, rfl⟩

theorem exProgram_upload (host v : Nat) (dirty : Bool) (newer : Newer) :
    emitUpload exProgram "P" (exState host (some v) dirty newer) .normal
      (exState host (some host) false .same) [.uploaded "P" (exState host (some v) dirty newer)] :=
  ⟨rfl, rfl, rfl⟩

theorem exProgram_keep (hres : resident "P" = true) (host : Nat) (dev : Option Nat) (dirty : Bool)
    (newer : Newer) :
    Event.keep exProgram resident (.ran "g" (exState host dev dirty newer)) =
      some (.ran "g" [dev.getD host]) := by
  have hsees : State.sees exProgram (exState host dev dirty newer) resident (exKernel true) () =
      dev.getD host := if_pos hres
  rw [← hsees]
  rfl

/-- Every kernel reads what it writes. -/
theorem exProgram_admitted (sym : String) (s : State Unit Nat) :
    Event.Admitted exProgram (.ran sym s) := by
  intro k hk _ a ha _ hread
  obtain ⟨d, hd, rfl⟩ := Option.map_eq_some_iff.mp hk
  have hmem : d ∈ [("g", exKernel true), ("h", exKernel false)] := List.mem_of_find?_eq_some hd
  rcases List.mem_cons.mp hmem with rfl | hmem
  · cases List.mem_singleton.mp ha
    cases hread
  · cases List.mem_singleton.mp hmem
    cases List.mem_singleton.mp ha
    cases hread

/-- Two GPU steps and a host step: the second step finds the buffer of the first, and the host step
comes after a download. -/
theorem coherent_three_steps : ∃ m', hostPath exProgram (.seq [.run "g", .run "g", .run "h"])
    (fun _ => 0) .normal m' [.ran "g" [0], .ran "g" [1], .ran "h" [2]] ∧ m' () = 3 := by
  let t : Tree := .seq [.run "g", .run "g", .run "h"]
  have hpass : coherencePass exProgram t =
      .seq [.run "g", .run "g", .gpuSync (some "P"), .run "h"] := rfl
  have hres : isResident exProgram t "P" = true := rfl
  have hrun : (coherencePass exProgram t).path exProgram (isResident exProgram t)
      (exState 0 none false .host) .normal (exState 3 (some 2) false .host)
      [.ran "g" (exState 0 none false .host), .ran "g" (exState 0 (some 1) true .device),
        .synced "P" (exState 0 (some 2) true .device), .ran "h" (exState 2 (some 2) false .same)] := by
    rw [hpass]
    simp only [Out.path, Out.pathAll]
    exact Path.seq_run (exProgram_gpu hres _ _ _ _) (Path.seq_run (exProgram_gpu hres _ _ _ _)
      (Path.seq_run (exProgram_sync _ _ _) (Path.seq_run (exProgram_host _ _ _ _) (Path.skip_run _))))
  obtain ⟨m', hhost, hright⟩ := coherent_of_admitted exProgram t (by decide) hrun (by
    intro e he
    simp only [List.mem_cons, List.not_mem_nil, or_false] at he
    rcases he with rfl | rfl | rfl | rfl
    · exact exProgram_admitted "g" _
    · exact exProgram_admitted "g" _
    · exact fun c _ => nofun
    · exact exProgram_admitted "h" _)
  exact ⟨m', hhost, (hright () nofun).symm⟩

/-- What the pass is for. -/
def CoherenceTransparent : Prop :=
  ∀ (κ V : Type) [DecidableEq κ] (P : Program κ V) (t : Tree), Transparent P t

/-- The loop may bring a host write to its first step, so an upload stands before this step. In the
first round it takes the result of the GPU step before the loop away. -/
theorem not_transparent : ¬ CoherenceTransparent := by
  intro h
  let t : Tree := .seq [.run "g", .loop (.seq [.run "g", .run "h"])]
  have hpass : coherencePass exProgram t = .seq [.run "g", .loop (.seq [.gpuUpload "P", .run "g",
      .gpuSync (some "P"), .run "h"])] := rfl
  have hres : isResident exProgram t "P" = true := by decide +kernel
  have hrun : (coherencePass exProgram t).path exProgram (isResident exProgram t)
      (exState 0 none false .host) .halted (exState 2 (some 1) false .host)
      [.ran "g" (exState 0 none false .host), .uploaded "P" (exState 0 (some 1) true .device),
        .ran "g" (exState 0 (some 0) false .same), .synced "P" (exState 0 (some 1) true .device),
        .ran "h" (exState 1 (some 1) false .same)] := by
    rw [hpass]
    simp only [Out.path, Out.pathAll]
    exact Path.seq_run (exProgram_gpu hres _ _ _ _) (Path.seq_out nofun (Path.seq_run
      (Path.seq_run (exProgram_upload _ _ _ _) (Path.seq_run (exProgram_gpu hres _ _ _ _)
        (Path.seq_run (exProgram_sync _ _ _) (Path.seq_run (exProgram_host _ _ _ _)
          (Path.skip_run _))))) .cutOff))
  have htransparent := h Unit Nat exProgram t (fun _ => 0)
  obtain ⟨m', hhost, -⟩ := htransparent _ _ _ hrun
  -- with all kernels on the host the second step reads what the first one wrote
  rw [List.filterMap_cons, List.filterMap_cons, List.filterMap_cons, exProgram_keep hres,
    exProgram_keep hres] at hhost
  rcases hhost with ⟨-, hno, -⟩ | ⟨m₁, es₁, es₂, ⟨-, rfl, rfl⟩, hloop, heq⟩
  · cases hno
  · rcases Path.of_seq_skip hloop with ⟨-, hbody⟩ | ⟨m₂, es₃, es₄, hbody, -, rfl⟩
    · rcases hbody with ⟨-, hno, -⟩ |
        ⟨m₂, es₃, es₄, -, ⟨-, hno, -⟩ | ⟨m₃, es₅, es₆, -, ⟨hno, -⟩, -⟩, -⟩
      · cases hno
      · cases hno
      · cases hno
    · rcases hbody with ⟨hno, -⟩ | ⟨m₃, es₅, es₆, ⟨-, -, rfl⟩, -, rfl⟩
      · exact hno rfl
      · have hsecond := congrArg (·[1]?) heq
        cases hsecond

end Arche.Codegen.GpuCoherence
