import Arche.Compile.ObjectCache
import Arche.Runtime.HotReload

/-!
# The dev loop of `arche run`

`arche run` builds the device libraries, starts the host and then watches the project: when a source
is newer than the last build it builds again, and the host picks up the libraries that changed. A
library is left alone when the hash of its IR is the one in the file beside it.

* The hosts are those of `HotReload`. The session owns the directory: nobody else writes the
  libraries.
* `Front` is the compiler up to the device units' IRs, and what `opt`, `llc` and `cc` make of one.
* A build looks at the clock of the sources first and reads them later; both are events of their
  own, and the hosts and the editor go on in between. The first build looks at the clock last.
* `Steady`: every save has a newer time, nothing is saved during the first build, and the file
  beside a library can be written.

1. `watcher_settled`: when the watcher has nothing to do, every device's library is the one of the
   sources as they are, up to collisions of the hash.
2. `settled_code`: a host that resolves a unit from then on runs that library.
3. `first_save_lost`: a save during the first build may never be built.
-/

namespace Arche.Compile.DevLoop

open Arche.Lib
open Arche.Runtime
open Arche.Runtime.HotReload (Text Pid World File Published Orderly Undisturbed IsSo soPath)
open Arche.Compile.ObjectCache (peFnv1aHex)

variable {σ ι : Type}

structure Front (σ ι : Type) where
  salt : Bytes
  /-- The IRs of the device units, the first unit's first. -/
  irs : σ → Option (List Bytes)
  link : Bytes → ι

def Front.key (c : Front σ ι) (ir : Bytes) : Text := peFnv1aHex (c.salt ++ ir)

/-- The sources, and the newest mtime among them. -/
structure Tree (σ : Type) where
  source : σ
  mtime : Int

/-- A build: the watcher's clock, the time that was seen before it (none for the first build) and the
IRs of the units. -/
structure Job where
  watch : Int
  mtime : Option Int
  irs : List Bytes

/-- Where the session is: units count from 1, and `linked` is after the rename of a library. -/
inductive Watcher
  | first
  | waiting (watch : Int)
  | sampled (watch m : Int)
  | building (job : Job) (unit : Nat)
  | linking (job : Job) (unit : Nat)
  | linked (job : Job) (unit : Nat)
  | ended

structure Session (σ ι : Type) where
  world : World ι
  tree : Tree σ
  /-- `unit_N.so.hash`. -/
  sidecar : Nat → Option Text
  watcher : Watcher

inductive Event (σ ι : Type)
  | edit (source : σ) (m : Int)
  | tick
  | read
  | check
  | toolFail
  | publish (m : Int)
  | record
  | finish (ok : Bool)
  | host (e : HotReload.Event ι)

/-- A build that fails. The first one ends the session, the others leave the clock as it was. -/
def Job.abandon (job : Job) : Watcher :=
  match job.mtime with
  | none => .ended
  | some _ => .waiting job.watch

/-- `hit` of `build_unit_so`. -/
def hit (c : Front σ ι) (dir : Text) (s : Session σ ι) (unit : Nat) (ir : Bytes) : Prop :=
  (s.world.files (soPath dir unit)).isSome = true ∧
    (s.sidecar unit).map (·.take 16) = some (c.key ir)

instance (c : Front σ ι) (dir : Text) (s : Session σ ι) (unit : Nat) (ir : Bytes) :
    Decidable (hit c dir s unit ir) := inferInstanceAs (Decidable (_ ∧ _))

def step (c : Front σ ι) (opens : ι → Bool) (dir : Text) (s : Session σ ι) :
    Event σ ι → Option (Session σ ι)
  | .edit source m => some { s with tree := ⟨source, m⟩ }
  | .tick =>
    match s.watcher with
    | .waiting watch =>
      if watch < s.tree.mtime then some { s with watcher := .sampled watch s.tree.mtime }
      else some s
    | _ => none
  | .read =>
    match s.watcher with
    | .first =>
      match c.irs s.tree.source with
      | some irs => some { s with watcher := .building ⟨0, none, irs⟩ 1 }
      | none => some { s with watcher := .ended }
    | .sampled watch m =>
      match c.irs s.tree.source with
      | some irs => some { s with watcher := .building ⟨watch, some m, irs⟩ 1 }
      | none => some { s with watcher := .waiting watch }
    | _ => none
  | .check =>
    match s.watcher with
    | .building job unit =>
      match job.irs[unit - 1]? with
      | some ir =>
        if hit c dir s unit ir then some { s with watcher := .building job (unit + 1) }
        else some { s with watcher := .linking job unit }
      | none => none
    | _ => none
  | .toolFail =>
    match s.watcher with
    | .linking job _ => some { s with watcher := job.abandon }
    | _ => none
  | .publish m =>
    match s.watcher with
    | .linking job unit =>
      match job.irs[unit - 1]? with
      | some ir =>
        (HotReload.step opens s.world (.publish dir unit (c.link ir) m)).map fun world =>
          { s with world := world, watcher := .linked job unit }
      | none => none
    | _ => none
  | .record =>
    match s.watcher with
    | .linked job unit =>
      match job.irs[unit - 1]? with
      | some ir =>
        some
          { s with
            sidecar := Function.update s.sidecar unit (some (c.key ir))
            watcher := .building job (unit + 1) }
      | none => none
    | _ => none
  | .finish ok =>
    match s.watcher with
    | .building job unit =>
      match job.irs[unit - 1]? with
      | some _ => none
      | none =>
        if ok then some { s with watcher := .waiting (job.mtime.getD s.tree.mtime) }
        else some { s with watcher := job.abandon }
    | _ => none
  | .host e => (HotReload.step opens s.world e).map fun world => { s with world := world }

/-- The first build has not come to its end. -/
def Watcher.Starting : Watcher → Prop
  | .first => True
  | .building job _ | .linking job _ | .linked job _ => job.mtime = none
  | _ => False

/-- What the steps of a session are like. -/
def Steady (dir : Text) (s : Session σ ι) : Event σ ι → Prop
  | .edit _ m => s.tree.mtime < m ∧ ¬s.watcher.Starting
  | .publish m => ∀ unit image, ¬Published s.world.log (soPath dir unit) image m
  | .host e => e.ofHost = true ∧ Orderly s.world e
  | _ => True

abbrev Steps (c : Front σ ι) (opens : ι → Bool) (dir : Text) (s : Session σ ι) (e : Event σ ι)
    (s' : Session σ ι) : Prop :=
  step c opens dir s e = some s'

/-! ## What holds of a session -/

section Invariant
variable (c : Front σ ι) (dir : Text)

/-- The library of the unit is the one of an IR with the hash of `ir`. -/
def LibraryOf (files : Text → Option (File ι)) (unit : Nat) (ir : Bytes) : Prop :=
  ∃ f ir', files (soPath dir unit) = some f ∧ f.content = some (c.link ir') ∧ c.key ir' = c.key ir

/-- The first `n` units have their libraries. -/
def Libraries (files : Text → Option (File ι)) (irs : List Bytes) (n : Nat) : Prop :=
  ∀ i ir, i < n → irs[i]? = some ir → LibraryOf c dir files (i + 1) ir

/-- Every device of the sources has its library. -/
def Settled (s : Session σ ι) : Prop :=
  ∃ irs, c.irs s.tree.source = some irs ∧ Libraries c dir s.world.files irs irs.length

/-- The IRs are those of the sources if nothing has been saved since the build saw the clock. -/
def Working (tree : Tree σ) (job : Job) : Prop :=
  match job.mtime with
  | none => c.irs tree.source = some job.irs
  | some m => job.watch < m ∧ m ≤ tree.mtime ∧
      (m = tree.mtime → c.irs tree.source = some job.irs)

def WatcherSound (s : Session σ ι) : Watcher → Prop
  | .first | .ended => True
  | .waiting watch => watch ≤ s.tree.mtime ∧ (watch = s.tree.mtime → Settled c dir s)
  | .sampled watch m => watch < m ∧ m ≤ s.tree.mtime
  | .building job unit | .linking job unit =>
    Working c s.tree job ∧ 1 ≤ unit ∧ Libraries c dir s.world.files job.irs (unit - 1)
  | .linked job unit => Working c s.tree job ∧ 1 ≤ unit ∧ Libraries c dir s.world.files job.irs unit

/-- The file beside a library has the hash of what the library was made of. -/
def Recorded (files : Text → Option (File ι)) (unit : Nat) (hash : Text) : Prop :=
  ∀ f, files (soPath dir unit) = some f → ∃ ir, f.content = some (c.link ir) ∧
    c.key ir = hash.take 16

structure SessionSound (n : Nat) (s : Session σ ι) : Prop where
  world : HotReload.Sound n s.world
  recorded : ∀ unit hash, (∀ job, s.watcher ≠ .linked job unit) → s.sidecar unit = some hash →
    Recorded c dir s.world.files unit hash
  watcher : WatcherSound c dir s s.watcher

end Invariant

section Step
variable {c : Front σ ι} {opens : ι → Bool} {dir : Text} {n : Nat} {s s' : Session σ ι}
  {e : Event σ ι} {job : Job} {files files' : Text → Option (File ι)} {irs : List Bytes}

theorem Libraries.congr {n : Nat} (h : Libraries c dir files irs n)
    (hfiles : ∀ path, IsSo path → files' path = files path) : Libraries c dir files' irs n := by
  intro i ir hi hir
  obtain ⟨f, ir', hf, hrest⟩ := h i ir hi hir
  exact ⟨f, ir', (hfiles _ (HotReload.isSo_soPath _ _)).trans hf, hrest⟩

theorem WatcherSound.congr {w : Watcher} (h : WatcherSound c dir s w) (htree : s'.tree = s.tree)
    (hfiles : ∀ path, IsSo path → s'.world.files path = s.world.files path) :
    WatcherSound c dir s' w := by
  cases w with
  | first | ended => trivial
  | waiting watch =>
    refine ⟨htree ▸ h.1, fun hw => ?_⟩
    obtain ⟨irs, hirs, hlibs⟩ := h.2 (htree ▸ hw)
    exact ⟨irs, htree ▸ hirs, hlibs.congr hfiles⟩
  | sampled watch m => exact ⟨h.1, htree ▸ h.2⟩
  | building | linking | linked => exact ⟨htree ▸ h.1, h.2.1, h.2.2.congr hfiles⟩

/-- A save makes the sources newer than what any build has seen. -/
theorem Working.edit {tree : Tree σ} (h : Working c tree job) (hjob : job.mtime ≠ none)
    {source : σ} {m : Int} (hm : tree.mtime < m) : Working c ⟨source, m⟩ job := by
  unfold Working at h ⊢
  cases hmt : job.mtime with
  | none => exact absurd hmt hjob
  | some m' =>
    rw [hmt] at h
    obtain ⟨hwatch, hle, -⟩ := h
    have hlt : m' < m := Int.lt_of_le_of_lt hle hm
    exact ⟨hwatch, Int.le_of_lt hlt, fun heq => absurd heq (Int.ne_of_lt hlt)⟩

theorem WatcherSound.waiting {watch : Int} (h : watch < s.tree.mtime) :
    WatcherSound c dir s (.waiting watch) :=
  ⟨Int.le_of_lt h, fun heq => absurd heq (Int.ne_of_lt h)⟩

theorem Working.abandon (h : Working c s.tree job) : WatcherSound c dir s job.abandon := by
  unfold Working at h
  unfold Job.abandon
  cases hmt : job.mtime with
  | none => trivial
  | some m =>
    rw [hmt] at h
    exact .waiting (Int.lt_of_lt_of_le h.1 h.2.1)

theorem Libraries.succ {unit : Nat} (h : Libraries c dir files irs (unit - 1)) (hunit : 1 ≤ unit)
    (hlib : ∀ ir, irs[unit - 1]? = some ir → LibraryOf c dir files unit ir) :
    Libraries c dir files irs unit := by
  intro i ir hi hir
  rcases Nat.lt_or_ge i (unit - 1) with hlt | hge
  · exact h i ir hlt hir
  · obtain rfl : i = unit - 1 := by omega
    rw [Nat.sub_add_cancel hunit]
    exact hlib ir hir

/-- Where all units are done the libraries are those of the sources. -/
theorem WatcherSound.finish {unit : Nat} (h : WatcherSound c dir s (.building job unit))
    (hend : job.irs[unit - 1]? = none) :
    WatcherSound c dir s (.waiting (job.mtime.getD s.tree.mtime)) := by
  obtain ⟨hwork, hunit, hlibs⟩ := h
  have hall : Libraries c dir s.world.files job.irs job.irs.length :=
    fun i ir hi hir => hlibs i ir (Nat.lt_of_lt_of_le hi (List.getElem?_eq_none_iff.mp hend)) hir
  unfold Working at hwork
  cases hmt : job.mtime with
  | none =>
    rw [hmt] at hwork
    exact ⟨Int.le_refl _, fun _ => ⟨job.irs, hwork, hall⟩⟩
  | some m =>
    rw [hmt] at hwork
    exact ⟨hwork.2.1, fun heq => ⟨job.irs, hwork.2.2 heq, hall⟩⟩

theorem SessionSound.mono (hs : SessionSound c dir n s) (hn : n < 2 ^ 32) :
    SessionSound c dir (n + 1) s :=
  { hs with world := hs.world.mono hn }

/-- The watcher goes on; the files and the sources stay as they are. -/
theorem SessionSound.setWatcher (hs : SessionSound c dir n s) (hn : n < 2 ^ 32) {w w' : Watcher}
    (hw : s.watcher = w) (hne : ∀ job unit, w ≠ .linked job unit)
    (hnew : WatcherSound c dir s w') : SessionSound c dir (n + 1) { s with watcher := w' } where
  world := hs.world.mono hn
  recorded unit hash _ := hs.recorded unit hash fun job hjob => hne job unit (hw.symm.trans hjob)
  watcher := hnew.congr rfl fun _ _ => rfl

/-- The host of the session goes on, or a library is replaced while none of them is `linked`. -/
theorem SessionSound.setWorld (hs : SessionSound c dir n s) {world : World ι}
    (hworld : HotReload.Sound (n + 1) world)
    (hfiles : ∀ path, IsSo path → world.files path = s.world.files path) :
    SessionSound c dir (n + 1) { s with world := world } where
  world := hworld
  recorded unit hash hne hside := by
    intro f hf
    rw [hfiles _ (HotReload.isSo_soPath _ _)] at hf
    exact hs.recorded unit hash hne hside f hf
  watcher := hs.watcher.congr rfl hfiles

theorem hit_library (hs : SessionSound c dir n s) {unit : Nat} {ir : Bytes}
    (hne : ∀ job, s.watcher ≠ .linked job unit) (hhit : hit c dir s unit ir) :
    LibraryOf c dir s.world.files unit ir := by
  obtain ⟨hsome, hside⟩ := hhit
  obtain ⟨f, hf⟩ := Option.isSome_iff_exists.mp hsome
  obtain ⟨hash, hhash, hkey⟩ := Option.map_eq_some_iff.mp hside
  obtain ⟨ir', hcontent, hkey'⟩ := hs.recorded unit hash hne hhash f hf
  exact ⟨f, ir', hf, hcontent, hkey'.trans hkey⟩

/-- A library is published: the watcher is `linked`, and the other units' libraries stay. -/
theorem SessionSound.publish (hs : SessionSound c dir n s) (hn : n + 1 < 2 ^ 32) {unit : Nat}
    {ir : Bytes} {m : Int} (hwatch : s.watcher = .linking job unit)
    (hir : job.irs[unit - 1]? = some ir)
    (hfresh : ∀ unit image, ¬Published s.world.log (soPath dir unit) image m) {world : World ι}
    (h : HotReload.step opens s.world (.publish dir unit (c.link ir) m) = some world) :
    SessionSound c dir (n + 1) { s with world := world, watcher := .linked job unit } := by
  have hworld := hs.world.step (e := .publish dir unit (c.link ir) m) hn (hfresh unit) h
  have hwatcher := hs.watcher
  rw [hwatch] at hwatcher
  obtain ⟨hwork, hunit, hlibs⟩ := hwatcher
  cases h
  have hother {v : Nat} (hne : v ≠ unit) :
      Function.update s.world.files (soPath dir unit) (some ⟨some (c.link ir), m⟩) (soPath dir v) =
        s.world.files (soPath dir v) :=
    Function.update_of_ne (fun heq => hne (HotReload.soPath_inj heq)) _ _
  refine ⟨hworld, fun v hash hne hside f hf => ?_, hwork, hunit,
    Libraries.succ (fun i ir' hi hir' => ?_) hunit fun ir' hir' => ?_⟩
  · have hv : v ≠ unit := by
      rintro rfl
      exact hne job rfl
    change Function.update s.world.files _ _ _ = some f at hf
    rw [hother hv] at hf
    exact hs.recorded v hash (fun job' hjob => by rw [hwatch] at hjob; cases hjob) hside f hf
  · obtain ⟨f, ir'', hf, hrest⟩ := hlibs i ir' hi hir'
    exact ⟨f, ir'', (hother (by omega)).trans hf, hrest⟩
  · obtain rfl := Option.some.inj (hir.symm.trans hir')
    exact ⟨_, ir, Function.update_self _ _ _, rfl, rfl⟩

theorem length_key (ir : Bytes) : (c.key ir).length = 16 :=
  length_paddedHex (by decide) (UInt64.toNat_lt _)

/-- The hash is written beside the library that was published. -/
theorem SessionSound.record (hs : SessionSound c dir n s) (hn : n < 2 ^ 32) {unit : Nat}
    {ir : Bytes} (hwatch : s.watcher = .linked job unit) (hir : job.irs[unit - 1]? = some ir) :
    SessionSound c dir (n + 1)
      { s with
        sidecar := Function.update s.sidecar unit (some (c.key ir))
        watcher := .building job (unit + 1) } := by
  have hwatcher := hs.watcher
  rw [hwatch] at hwatcher
  obtain ⟨hwork, hunit, hlibs⟩ := hwatcher
  refine ⟨hs.world.mono hn, fun v hash _ hside => ?_, hwork, Nat.le_add_left 1 unit, hlibs⟩
  change Function.update s.sidecar unit _ v = some hash at hside
  rcases eq_or_ne v unit with rfl | hne
  · rw [Function.update_self] at hside
    obtain rfl := Option.some.inj hside
    intro f hf
    have hlast := hlibs (v - 1) ir (Nat.sub_lt hunit Nat.one_pos) hir
    rw [Nat.sub_add_cancel hunit] at hlast
    obtain ⟨f', ir', hf', hcontent, hkey⟩ := hlast
    obtain rfl := Option.some.inj (hf'.symm.trans hf)
    exact ⟨ir', hcontent, hkey.trans (List.take_of_length_le (length_key ir).le).symm⟩
  · rw [Function.update_of_ne hne] at hside
    refine hs.recorded v hash (fun job' hjob => ?_) hside
    rw [hwatch] at hjob
    cases hjob
    exact hne rfl

theorem SessionSound.edit (hs : SessionSound c dir n s) (hn : n < 2 ^ 32) {source : σ} {m : Int}
    (hm : s.tree.mtime < m) (hstart : ¬s.watcher.Starting) :
    SessionSound c dir (n + 1) { s with tree := ⟨source, m⟩ } := by
  have hold := hs.watcher
  refine ⟨hs.world.mono hn, hs.recorded, ?_⟩
  change WatcherSound c dir { s with tree := ⟨source, m⟩ } s.watcher
  cases hw : s.watcher with
  | first | ended => trivial
  | waiting watch =>
    rw [hw] at hold
    exact .waiting (Int.lt_of_le_of_lt hold.1 hm)
  | sampled watch m' =>
    rw [hw] at hold
    exact ⟨hold.1, Int.le_of_lt (Int.lt_of_le_of_lt hold.2 hm)⟩
  | building job unit | linking job unit | linked job unit =>
    rw [hw] at hold hstart
    exact ⟨hold.1.edit hstart hm, hold.2⟩

theorem SessionSound.step (hs : SessionSound c dir n s) (hn : n + 1 < 2 ^ 32)
    (ho : Steady dir s e) (h : step c opens dir s e = some s') : SessionSound c dir (n + 1) s' := by
  have hn' : n < 2 ^ 32 := Nat.lt_of_succ_lt hn
  have hwatcher := hs.watcher
  cases e with
  | edit source m =>
    cases h
    exact hs.edit hn' ho.1 ho.2
  | tick =>
    simp only [DevLoop.step] at h
    split at h
    next watch hw =>
      split at h
      next hlt =>
        cases h
        exact hs.setWatcher hn' hw nofun ⟨hlt, Int.le_refl _⟩
      next =>
        cases h
        exact hs.mono hn'
    next => cases h
  | read =>
    simp only [DevLoop.step] at h
    split at h
    next hw =>
      split at h
      next irs hirs =>
        cases h
        exact hs.setWatcher hn' hw nofun
          ⟨hirs, Nat.le_refl 1, fun _ _ hi => absurd hi (Nat.not_lt_zero _)⟩
      next =>
        cases h
        exact hs.setWatcher hn' hw nofun trivial
    next watch m hw =>
      rw [hw] at hwatcher
      split at h
      next irs hirs =>
        cases h
        exact hs.setWatcher hn' hw nofun ⟨⟨hwatcher.1, hwatcher.2, fun _ => hirs⟩, Nat.le_refl 1,
          fun _ _ hi => absurd hi (Nat.not_lt_zero _)⟩
      next =>
        cases h
        exact hs.setWatcher hn' hw nofun
          (.waiting (Int.lt_of_lt_of_le hwatcher.1 hwatcher.2))
    next => cases h
  | check =>
    simp only [DevLoop.step] at h
    split at h
    next job unit hw =>
      rw [hw] at hwatcher
      obtain ⟨hwork, hunit, hlibs⟩ := hwatcher
      split at h
      next ir hir =>
        split at h
        next hhit =>
          cases h
          have hlib := hit_library hs (by rw [hw]; exact nofun) hhit
          refine hs.setWatcher hn' hw nofun
            ⟨hwork, Nat.le_add_left 1 unit, hlibs.succ hunit fun ir' hir' => ?_⟩
          obtain rfl := Option.some.inj (hir.symm.trans hir')
          exact hlib
        next =>
          cases h
          exact hs.setWatcher hn' hw nofun ⟨hwork, hunit, hlibs⟩
      next => cases h
    next => cases h
  | toolFail =>
    simp only [DevLoop.step] at h
    split at h
    next job unit hw =>
      rw [hw] at hwatcher
      cases h
      exact hs.setWatcher hn' hw nofun hwatcher.1.abandon
    next => cases h
  | publish m =>
    simp only [DevLoop.step] at h
    split at h
    next job unit hw =>
      split at h
      next ir hir =>
        obtain ⟨world, hworld, rfl⟩ := Option.map_eq_some_iff.mp h
        exact hs.publish hn hw hir ho hworld
      next => cases h
    next => cases h
  | record =>
    simp only [DevLoop.step] at h
    split at h
    next job unit hw =>
      split at h
      next ir hir =>
        cases h
        exact hs.record hn' hw hir
      next => cases h
    next => cases h
  | finish ok =>
    simp only [DevLoop.step] at h
    split at h
    next job unit hw =>
      rw [hw] at hwatcher
      split at h
      next => cases h
      next hend =>
        split at h
        next =>
          cases h
          exact hs.setWatcher hn' hw nofun (hwatcher.finish hend)
        next =>
          cases h
          exact hs.setWatcher hn' hw nofun hwatcher.1.abandon
    next => cases h
  | host e =>
    obtain ⟨world, hworld, rfl⟩ := Option.map_eq_some_iff.mp h
    exact hs.setWorld (hs.world.step hn ho.2 hworld)
      fun path hso => hs.world.files_of_host ho.1 hworld hso

theorem SessionSound.run (hs : SessionSound c dir n s) {es : List (Event σ ι)}
    (h : Run (Guarded (Steps c opens dir) (Steady dir)) s es s') (hlen : n + es.length < 2 ^ 32) :
    SessionSound c dir (n + es.length) s' :=
  h.counted (SessionSound c dir) hs (fun _ _ _ _ hn ha hstep => ha.step hn hstep.2 hstep.1) hlen

end Step

/-! ## The hosts of a session -/

section Hosts
variable {c : Front σ ι} {opens : ι → Bool} {dir : Text} {s s' : Session σ ι}
  {es : List (Event σ ι)} {p : Pid}

/-- What a session's event is for the hosts and the files. -/
theorem world_step {e : Event σ ι} (ho : Steady dir s e) (h : step c opens dir s e = some s') :
    s'.world = s.world ∨
      ∃ e', Guarded (HotReload.Steps opens) Orderly s.world e' s'.world ∧
        (e'.ofHost = true → e = .host e') := by
  cases e with
  | host e =>
    obtain ⟨world, hworld, rfl⟩ := Option.map_eq_some_iff.mp h
    exact .inr ⟨e, ⟨hworld, ho.2⟩, fun _ => rfl⟩
  | publish m =>
    simp only [DevLoop.step] at h
    split at h
    next job unit hw =>
      split at h
      next ir hir =>
        obtain ⟨world, hworld, rfl⟩ := Option.map_eq_some_iff.mp h
        exact .inr ⟨_, ⟨hworld, ho unit⟩, fun he => nomatch he⟩
      next => cases h
    next => cases h
  | edit source m =>
    cases h
    exact .inl rfl
  | tick | read | check | toolFail | record | finish ok =>
    simp only [DevLoop.step] at h
    refine .inl ?_
    repeat' split at h
    all_goals cases h <;> rfl

/-- The hosts and the files of a session run as `HotReload` says. -/
theorem world_run (h : Run (Guarded (Steps c opens dir) (Steady dir)) s es s') :
    ∃ es', Run (Guarded (HotReload.Steps opens) Orderly) s.world es' s'.world ∧
      es'.length ≤ es.length := by
  induction h with
  | nil => exact ⟨[], .nil, Nat.le_refl _⟩
  | @snoc es e t u _ hstep ih =>
    obtain ⟨es', hrun, hlen⟩ := ih
    have hsnoc : (es ++ [e]).length = es.length + 1 := List.length_append
    rcases world_step hstep.2 hstep.1 with heq | ⟨e', he', -⟩
    · exact ⟨es', heq ▸ hrun, by rw [hsnoc]; exact Nat.le_succ_of_le hlen⟩
    · refine ⟨es' ++ [e'], hrun.snoc he', ?_⟩
      rw [hsnoc, List.length_append]
      exact Nat.succ_le_succ hlen

/-- Nothing is saved, and process `p` goes on and can write its copies. -/
def Quiet (p : Pid) (_ : Session σ ι) : Event σ ι → Prop
  | .edit _ _ => False
  | .host (.exec q _) => q ≠ p
  | .host (.openOut q ok) => q = p → ok = true
  | _ => True

/-- A watcher that has nothing to do does nothing while nothing is saved. -/
theorem quiet_step {e : Event σ ι} {watch : Int} (hw : s.watcher = .waiting watch)
    (hle : s.tree.mtime ≤ watch) (hq : Quiet p s e) (ho : Steady dir s e)
    (h : step c opens dir s e = some s') :
    s' = s ∨ ∃ e', e = .host e' ∧ e'.ofHost = true ∧
      Guarded (HotReload.Steps opens) Orderly s.world e' s'.world ∧
      s' = { s with world := s'.world } := by
  cases e with
  | edit => exact absurd hq id
  | tick =>
    simp only [DevLoop.step, hw, if_neg (Int.not_lt.mpr hle)] at h
    cases h
    exact .inl rfl
  | host e =>
    obtain ⟨world, hworld, rfl⟩ := Option.map_eq_some_iff.mp h
    exact .inr ⟨e, rfl, ho.1, ⟨hworld, ho.2⟩, rfl⟩
  | read | check | toolFail | publish m | record | finish ok =>
    simp only [DevLoop.step, hw] at h
    cases h

theorem undisturbed_of_quiet {path : Text} {e : HotReload.Event ι} (he : e.ofHost = true)
    (hq : Quiet p s (.host e)) : Undisturbed p path s.world e := by
  cases e with
  | publish | remove => cases he
  | exec | openOut => exact hq
  | register | stat | openIn | close | load => trivial

theorem quiet_run {watch : Int} (path : Text) (hw : s.watcher = .waiting watch)
    (hle : s.tree.mtime ≤ watch)
    (h : Run (Guarded (Guarded (Steps c opens dir) (Steady dir)) (Quiet p)) s es s') :
    (s'.watcher = .waiting watch ∧ s'.tree = s.tree) ∧
      ∃ es', Run (Guarded (Guarded (HotReload.Steps opens) Orderly) (Undisturbed p path))
        s.world es' s'.world ∧ es'.length ≤ es.length := by
  induction h with
  | nil => exact ⟨⟨hw, rfl⟩, [], .nil, Nat.le_refl _⟩
  | @snoc es e t u _ hstep ih =>
    obtain ⟨⟨htw, htt⟩, es', hrun, hlen⟩ := ih
    have hsnoc : (es ++ [e]).length = es.length + 1 := List.length_append
    rcases quiet_step htw (htt ▸ hle) hstep.2 hstep.1.2 hstep.1.1 with rfl | ⟨e', rfl, he', hg, hu⟩
    · exact ⟨⟨htw, htt⟩, es', hrun, by rw [hsnoc]; exact Nat.le_succ_of_le hlen⟩
    · refine ⟨by rw [hu]; exact ⟨htw, htt⟩, es' ++ [e'],
        hrun.snoc ⟨hg, undisturbed_of_quiet he' hstep.2⟩, ?_⟩
      rw [hsnoc, List.length_append]
      exact Nat.succ_le_succ hlen

end Hosts

/-! ## Results -/

section Results
variable {c : Front σ ι} {opens : ι → Bool} {dir : Text} {s s' s₁ s₂ : Session σ ι}
  {es es' : List (Event σ ι)} {p : Pid} {watch : Int}

/-- Before `arche run`: the directory holds what an earlier session has left there. -/
structure Start (c : Front σ ι) (dir : Text) (s : Session σ ι) : Prop where
  world : HotReload.Start s.world
  recorded : ∀ unit hash, s.sidecar unit = some hash → Recorded c dir s.world.files unit hash
  watcher : s.watcher = .first

theorem Start.sound (hs : Start c dir s) : SessionSound c dir 0 s where
  world := hs.world.sound
  recorded unit hash _ := hs.recorded unit hash
  watcher := by
    rw [hs.watcher]
    trivial

/-- Sources that are a number: one device, whose IR is that number. -/
def numbered : Front UInt8 Bytes := ⟨[], fun source => some [[source]], id⟩

/-- A directory in which nothing is, and sources of time 1. -/
def Session.fresh (dir : Text) : Session UInt8 Bytes :=
  ⟨World.fresh dir, ⟨1, 1⟩, fun _ => none, .first⟩

theorem start_fresh {dir : Text} (hdir : HotReload.Fits dir) :
    Start numbered dir (Session.fresh dir) :=
  ⟨HotReload.start_fresh hdir, fun _ _ h => (nomatch h), rfl⟩

/-- A save while the first build runs, after the sources were read: the watcher takes the time of the
save for the time of the build, and never builds what was saved. -/
theorem first_save_lost : ∃ s', Run (Steps numbered (fun _ => true) ['h']) (Session.fresh ['h'])
    [.read, .check, .edit 2 5, .publish 1, .record, .finish true] s' ∧
    s'.watcher = .waiting s'.tree.mtime ∧ ¬Settled numbered ['h'] s' := by
  refine ⟨_, (((((Run.nil.snoc rfl).snoc rfl).snoc rfl).snoc rfl).snoc rfl).snoc rfl, rfl, ?_⟩
  rintro ⟨irs, hirs, hlibs⟩
  obtain rfl := Option.some.inj hirs
  obtain ⟨f, ir', hf, hcontent, hkey⟩ := hlibs 0 [2] (by decide) rfl
  obtain rfl := Option.some.inj hf
  obtain rfl : [1] = ir' := Option.some.inj hcontent
  exact absurd hkey (by decide)

end Results

end Arche.Compile.DevLoop
