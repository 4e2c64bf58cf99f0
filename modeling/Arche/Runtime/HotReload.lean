import Arche.Lib.Printf
import Arche.Lib.Run
import Arche.Lib.Words
import Mathlib.Logic.Function.Basic

/-!
# The hot-reload runtime

A host built by `arche run` loads each device unit from its own `.so` and loads it again when the
file has changed. The hosts of one directory, and whoever rebuilds the devices, run at the same
time: an `Event` is one system call of `ensure_loaded` or one thing that happens to the files.

* A `.so` is replaced by a rename, so what `fopen` has opened stays what it was. A file has no
  content while `fopen(.., "wb")` has truncated it and `fclose` has not been reached.
* `loaded` are the images that a process has mapped so far. A later `dlopen` of a name that is in
  this list gives the mapped image and not the file, also after `dlclose`.
* `opens` tells which images `dlopen` accepts.
* `log` lists what was ever published; no code reads it.

1. `images_intact`: no process ever truncates or overwrites a file of which some process has the
   image mapped, and what is mapped was published for that unit in one piece.
2. `resolve_current`: a resolve that no rebuild crosses ends on the code of the file, or on the
   last good code if the file cannot be loaded.
-/

namespace Arche.Runtime.HotReload

open Arche.Lib

abbrev Text := List Char

/-- A positive `pid_t`. -/
abbrev Pid := Fin (2 ^ 31)

/-- `HOT_MAX_UNITS`. -/
def maxUnits : Nat := 64

variable {ι : Type}

/-! ## The host and the files -/

structure File (ι : Type) where
  content : Option ι
  mtime : Int

/-- A `dlopen` handle: the name it was opened under and the image that is mapped. -/
structure Handle (ι : Type) where
  name : Text
  image : ι

/-- `HotUnit`. -/
structure HotUnit (ι : Type) where
  path : Text := []
  handle : Option (Handle ι) := none
  mtime : Int := 0
  gen : Nat := 0
  active : Bool := false

/-- How far `ensure_loaded` has come: `m` is the mtime that `stat` gave, `bytes` what `in` has
opened. -/
inductive Phase (ι : Type)
  | idle
  | statted (unit : Nat) (m : Int)
  | reading (unit : Nat) (m : Int) (bytes : Option ι)
  | writing (unit : Nat) (m : Int) (bytes : Option ι)
  | copied (unit : Nat) (m : Int) (bytes : Option ι)

/-- The unit that is being loaded. -/
def Phase.unit? : Phase ι → Option Nat
  | .idle => none
  | .statted u _ | .reading u _ _ | .writing u _ _ | .copied u _ _ => some u

/-- `dir` is the process's `ARCHE_HOT_DIR`, `units` are `g_units`. -/
structure Host (ι : Type) where
  dir : Text
  units : Nat → HotUnit ι
  phase : Phase ι
  loaded : List (Handle ι)

/-- A process that has just started. -/
def Host.started (dir : Text) : Host ι := ⟨dir, fun _ => {}, .idle, []⟩

structure Publication (ι : Type) where
  path : Text
  image : ι
  mtime : Int

structure World (ι : Type) where
  files : Text → Option (File ι)
  hosts : Pid → Host ι
  log : List (Publication ι)

/-! ## The calls -/

/-- The name that codegen passes for a unit. -/
def hotName (unit : Nat) : Text := "unit_".toList ++ printDecimal unit ++ ".so".toList

/-- Where `build_unit_so` publishes a unit. -/
def soPath (dir : Text) (unit : Nat) : Text := dir ++ '/' :: hotName unit

/-- `arche_hot_register`. -/
def archeHotRegister (dir : Text) (unit : Nat) : HotUnit ι :=
  { path := snprintf 1024 (soPath dir unit), active := true }

/-- The name of the versioned copy. -/
def tempName (path : Text) (pid : Pid) (gen : Nat) : Text :=
  snprintf 1100 (path ++ ".hot.".toList ++ printDecimal pid.val ++ '.' :: printDecimal gen)

/-- The generation that the next load of a unit has. -/
def HotUnit.next (u : HotUnit ι) : Nat := (u.gen + 1) % 2 ^ 32

/-- The unit after a load. -/
def HotUnit.reloaded (u : HotUnit ι) (l : Handle ι) (m : Int) : HotUnit ι :=
  { u with handle := some l, mtime := m, gen := u.next }

def Host.temp (h : Host ι) (p : Pid) (unit : Nat) : Text :=
  tempName (h.units unit).path p (h.units unit).next

def Host.setUnit (h : Host ι) (unit : Nat) (u : HotUnit ι) : Host ι :=
  { h with units := Function.update h.units unit u }

def World.setHost (w : World ι) (p : Pid) (h : Host ι) : World ι :=
  { w with hosts := Function.update w.hosts p h }

def World.write (w : World ι) (name : Text) (content : Option ι) : World ι :=
  { w with files := Function.update w.files name (some ⟨content, 0⟩) }

@[simp] theorem setHost_files (w : World ι) (p : Pid) (h : Host ι) :
    (w.setHost p h).files = w.files := rfl

@[simp] theorem setHost_log (w : World ι) (p : Pid) (h : Host ι) : (w.setHost p h).log = w.log := rfl

@[simp] theorem setHost_self (w : World ι) (p : Pid) (h : Host ι) : (w.setHost p h).hosts p = h :=
  Function.update_self _ _ _

theorem setHost_of_ne (w : World ι) {p q : Pid} (h : Host ι) (hne : q ≠ p) :
    (w.setHost p h).hosts q = w.hosts q := Function.update_of_ne hne _ _

@[simp] theorem write_log (w : World ι) (name : Text) (content : Option ι) :
    (w.write name content).log = w.log := rfl

@[simp] theorem write_hosts (w : World ι) (name : Text) (content : Option ι) :
    (w.write name content).hosts = w.hosts := rfl

theorem write_files_of_ne (w : World ι) {name path : Text} (content : Option ι)
    (hne : path ≠ name) : (w.write name content).files path = w.files path :=
  Function.update_of_ne hne _ _

/-- `dlopen`: a name that was opened before gives the image that is mapped. -/
def dlopen (opens : ι → Bool) (files : Text → Option (File ι)) (loaded : List (Handle ι))
    (name : Text) : Option (Handle ι) :=
  match loaded.find? (·.name = name) with
  | some l => some l
  | none =>
    match files name with
    | some ⟨some image, _⟩ => if opens image then some ⟨name, image⟩ else none
    | _ => none

inductive Event (ι : Type)
  | publish (dir : Text) (unit : Nat) (image : ι) (m : Int)
  | remove (dir : Text) (unit : Nat)
  | exec (p : Pid) (dir : Text)
  | register (p : Pid) (unit : Nat)
  | stat (p : Pid) (unit : Nat)
  | openIn (p : Pid)
  | openOut (p : Pid) (ok : Bool)
  | close (p : Pid)
  | load (p : Pid)

/-- The end of `ensure_loaded`: `dlopen` of the copy, and the unit is given the new handle. -/
def Host.load (opens : ι → Bool) (files : Text → Option (File ι)) (h : Host ι) (p : Pid)
    (unit : Nat) (m : Int) : Host ι :=
  match dlopen opens files h.loaded (h.temp p unit) with
  | none => { h with phase := .idle }
  | some l =>
    { h.setUnit unit ((h.units unit).reloaded l m) with
      phase := .idle
      loaded := l :: h.loaded }

/-- `arche_hot_resolve` is `stat` and the calls that follow it, up to `idle`. -/
def step (opens : ι → Bool) (w : World ι) : Event ι → Option (World ι)
  | .publish dir unit image m =>
    some
      { w with
        files := Function.update w.files (soPath dir unit) (some ⟨some image, m⟩)
        log := ⟨soPath dir unit, image, m⟩ :: w.log }
  | .remove dir unit => some { w with files := Function.update w.files (soPath dir unit) none }
  | .exec p dir => some (w.setHost p (.started dir))
  | .register p unit =>
    let h := w.hosts p
    match h.phase with
    | .idle =>
      if unit < maxUnits then some (w.setHost p (h.setUnit unit (archeHotRegister h.dir unit)))
      else some w
    | _ => none
  | .stat p unit =>
    let h := w.hosts p
    let u := h.units unit
    match h.phase with
    | .idle =>
      if unit < maxUnits ∧ u.active then
        match w.files u.path with
        | none => some w
        | some f =>
          if u.handle.isSome ∧ f.mtime = u.mtime then some w
          else some (w.setHost p { h with phase := .statted unit f.mtime })
      else some w
    | _ => none
  | .openIn p =>
    let h := w.hosts p
    match h.phase with
    | .statted unit m =>
      match w.files (h.units unit).path with
      | none => some (w.setHost p { h with phase := .idle })
      | some f => some (w.setHost p { h with phase := .reading unit m f.content })
    | _ => none
  | .openOut p ok =>
    let h := w.hosts p
    match h.phase with
    | .reading unit m bytes =>
      if ok then
        some ((w.write (h.temp p unit) none).setHost p { h with phase := .writing unit m bytes })
      else some (w.setHost p { h with phase := .idle })
    | _ => none
  | .close p =>
    let h := w.hosts p
    match h.phase with
    | .writing unit m bytes =>
      some ((w.write (h.temp p unit) bytes).setHost p { h with phase := .copied unit m bytes })
    | _ => none
  | .load p =>
    let h := w.hosts p
    match h.phase with
    | .copied unit m _ => some (w.setHost p (h.load opens w.files p unit m))
    | _ => none

/-- The image in which `arche_hot_resolve` looks the symbol up. -/
def World.code (w : World ι) (p : Pid) (unit : Nat) : Option ι :=
  ((w.hosts p).units unit).handle.map (·.image)

/-! ## The names of the copies -/

/-- A directory that leaves room for the names below it. -/
def Fits (dir : Text) : Prop := dir.length ≤ 1012

instance (dir : Text) : Decidable (Fits dir) := inferInstanceAs (Decidable (_ ≤ _))

/-- The texts that end as a library does. -/
def IsSo (path : Text) : Prop := ".so".toList <:+ path

theorem isSo_soPath (dir : Text) (unit : Nat) : IsSo (soPath dir unit) :=
  ⟨dir ++ '/' :: ("unit_".toList ++ printDecimal unit), by simp [soPath, hotName]⟩

theorem soPath_inj {dir : Text} {u v : Nat} (h : soPath dir u = soPath dir v) : u = v := by
  have hname : hotName u = hotName v := (List.cons.inj (List.append_cancel_left h)).2
  exact printDecimal_inj (List.append_cancel_left (List.append_cancel_right hname))

theorem length_soPath_lt {dir : Text} {u : Nat} (hdir : Fits dir) (hu : u < maxUnits) :
    (soPath dir u).length < 1024 := by
  have hd : (printDecimal u).length ≤ 2 :=
    length_printDecimal_le (by decide) (Nat.lt_trans hu (by decide))
  have hfit : dir.length ≤ 1012 := hdir
  simp only [soPath, hotName, List.length_append, List.length_cons, String.length_toList]
  change dir.length + (5 + (printDecimal u).length + 3 + 1) < 1024
  omega

theorem register_path {dir : Text} {u : Nat} (hdir : Fits dir) (hu : u < maxUnits) :
    (archeHotRegister dir u : HotUnit ι).path = soPath dir u :=
  snprintf_of_lt (length_soPath_lt hdir hu)

section Names
variable {dir dir' : Text} {u v : Nat} {p q : Pid} {g g' : Nat}

theorem tempName_eq (hdir : Fits dir) (hu : u < maxUnits) (hg : g < 2 ^ 32) :
    tempName (soPath dir u) p g =
      soPath dir u ++ ".hot".toList ++ '.' :: printDecimal p.val ++ '.' :: printDecimal g := by
  have hp : (printDecimal p.val).length ≤ 10 :=
    length_printDecimal_le (by decide) (Nat.lt_trans p.isLt (by decide))
  have hd : (printDecimal g).length ≤ 10 :=
    length_printDecimal_le (by decide) (Nat.lt_trans hg (by decide))
  have hs := length_soPath_lt hdir hu
  have hlen : (soPath dir u ++ ".hot.".toList ++ printDecimal p.val ++
      '.' :: printDecimal g).length < 1100 := by
    simp only [List.length_append, List.length_cons, String.length_toList]
    change (soPath dir u).length + 5 + (printDecimal p.val).length +
      ((printDecimal g).length + 1) < 1100
    omega
  rw [tempName, snprintf_of_lt hlen]
  simp

/-- The directory and unit, the process and the generation can be read off the name of a copy. -/
theorem tempName_inj (hdir : Fits dir) (hdir' : Fits dir') (hu : u < maxUnits) (hv : v < maxUnits)
    (hg : g < 2 ^ 32) (hg' : g' < 2 ^ 32)
    (h : tempName (soPath dir u) p g = tempName (soPath dir' v) q g') :
    soPath dir u = soPath dir' v ∧ p = q ∧ g = g' := by
  rw [tempName_eq hdir hu hg, tempName_eq hdir' hv hg'] at h
  obtain ⟨hfront, hgen⟩ :=
    append_last_mark_inj (notMem_printDecimal rfl g) (notMem_printDecimal rfl g') h
  obtain ⟨hpath, hpid⟩ :=
    append_last_mark_inj (notMem_printDecimal rfl _) (notMem_printDecimal rfl _) hfront
  exact ⟨List.append_cancel_right hpath, Fin.ext (printDecimal_inj hpid), printDecimal_inj hgen⟩

theorem not_isSo_tempName (hdir : Fits dir) (hu : u < maxUnits) (hg : g < 2 ^ 32) :
    ¬IsSo (tempName (soPath dir u) p g) := by
  rintro ⟨front, hfront⟩
  have hso : front ++ ".so".toList = front ++ '.' :: "so".toList := rfl
  rw [tempName_eq hdir hu hg, hso] at hfront
  obtain ⟨-, hdigits⟩ := append_last_mark_inj (by decide) (notMem_printDecimal rfl g) hfront
  have hs : 's' ∈ printDecimal g := hdigits ▸ by decide
  exact absurd (Nat.isDigit_of_mem_toDigits (by decide) (by decide) hs) (by decide)

end Names

/-- The names under which process `p` keeps copies. -/
def OwnTemp (p : Pid) (name : Text) : Prop :=
  ∃ dir unit g, Fits dir ∧ unit < maxUnits ∧ g < 2 ^ 32 ∧ name = tempName (soPath dir unit) p g

theorem OwnTemp.not_isSo {p : Pid} {name : Text} (h : OwnTemp p name) : ¬IsSo name := by
  obtain ⟨dir, unit, g, hdir, hu, hg, rfl⟩ := h
  exact not_isSo_tempName hdir hu hg

theorem OwnTemp.pid {p q : Pid} {name : Text} (hp : OwnTemp p name) (hq : OwnTemp q name) :
    p = q := by
  obtain ⟨dir, u, g, hdir, hu, hg, rfl⟩ := hp
  obtain ⟨dir', v, g', hdir', hv, hg', h⟩ := hq
  exact (tempName_inj hdir hdir' hu hv hg hg' h).2.1

/-! ## What holds of a host -/

def Published (log : List (Publication ι)) (path : Text) (image : ι) (m : Int) : Prop :=
  ⟨path, image, m⟩ ∈ log

/-- A file whose mtime is `m` has the content `bytes`. -/
def Current (files : Text → Option (File ι)) (path : Text) (m : Int) (bytes : Option ι) : Prop :=
  ∀ f, files path = some f → f.mtime = m → f.content = bytes

section
variable (files : Text → Option (File ι)) (log : List (Publication ι))

/-- What was read is a whole image, and it is the one that goes with the mtime if the file still
has that mtime. -/
def Read (path : Text) (m : Int) (bytes : Option ι) : Prop :=
  (∃ image, Published log path image m) ∧ (∃ image m', bytes = some image ∧
    Published log path image m') ∧ Current files path m bytes

/-- What holds in a phase of `ensure_loaded`. -/
def Ready (p : Pid) (h : Host ι) : Phase ι → Prop
  | .idle => True
  | .statted u m =>
    (h.units u).active = true ∧ ∃ image, Published log (h.units u).path image m
  | .reading u m bytes | .writing u m bytes =>
    (h.units u).active = true ∧ Read files log (h.units u).path m bytes
  | .copied u m bytes =>
    (h.units u).active = true ∧ Read files log (h.units u).path m bytes ∧
      ∃ m', files (h.temp p u) = some ⟨bytes, m'⟩

/-- The image is mapped from a copy that process `p` made for one of its units, and the copy is
still what it was. -/
def Intact (p : Pid) (h : Host ι) (l : Handle ι) : Prop :=
  ∃ u g, (h.units u).active = true ∧ g ≤ (h.units u).gen ∧
    l.name = tempName (h.units u).path p g ∧
    (∃ m, files l.name = some ⟨some l.image, m⟩) ∧ ∃ m, Published log (h.units u).path l.image m

structure HostSound (n : Nat) (p : Pid) (h : Host ι) : Prop where
  dir : Fits h.dir
  path : ∀ u, (h.units u).active = true → u < maxUnits ∧ (h.units u).path = soPath h.dir u
  gen : ∀ u, (h.units u).gen ≤ n
  loaded : ∀ l ∈ h.loaded, Intact files log p h l
  handle : ∀ u l, (h.units u).handle = some l →
    (h.units u).active = true ∧ l ∈ h.loaded ∧
      (∃ image, Published log (h.units u).path image (h.units u).mtime) ∧
      Current files (h.units u).path (h.units u).mtime (some l.image)
  phase : Ready files log p h h.phase

end

/-- After `n` events. -/
structure Sound (n : Nat) (w : World ι) : Prop where
  files : ∀ path f, IsSo path → w.files path = some f →
    ∃ image, f.content = some image ∧ Published w.log path image f.mtime
  once : ∀ path a b m, Published w.log path a m → Published w.log path b m → a = b
  hosts : ∀ p, HostSound w.files w.log n p (w.hosts p)

/-! ## What the others do -/

/-- How the files may change around process `p`: libraries are replaced by newer ones, and nobody
touches the copies of `p`. -/
structure Evolves (p : Pid) (files files' : Text → Option (File ι))
    (log log' : List (Publication ι)) : Prop where
  published : log ⊆ log'
  libs : ∀ path f, IsSo path → files' path = some f →
    files path = some f ∨ ∀ image, ¬Published log path image f.mtime
  temps : ∀ name, OwnTemp p name → files' name = files name

section Frame
variable {files files' : Text → Option (File ι)} {log log' : List (Publication ι)}
  {n n' : Nat} {p : Pid} {h : Host ι} {u : Nat} {m : Int} {bytes : Option ι}

theorem Current.evolves {path : Text} (hc : Current files path m bytes) (hso : IsSo path)
    (hm : ∃ image, Published log path image m) (he : Evolves p files files' log log') :
    Current files' path m bytes := by
  intro f hf hfm
  rcases he.libs path f hso hf with hold | hnew
  · exact hc f hold hfm
  · obtain ⟨image, himage⟩ := hm
    exact absurd (hfm ▸ himage) (hnew image)

theorem HostSound.isSo (hs : HostSound files log n p h) (hu : (h.units u).active = true) :
    IsSo (h.units u).path := by
  rw [(hs.path u hu).2]
  exact isSo_soPath _ _

theorem Read.evolves {path : Text} (hr : Read files log path m bytes) (hso : IsSo path)
    (he : Evolves p files files' log log') : Read files' log' path m bytes := by
  obtain ⟨⟨image, himage⟩, ⟨image', m', hbytes, himage'⟩, hcur⟩ := hr
  exact ⟨⟨image, he.published himage⟩, ⟨image', m', hbytes, he.published himage'⟩,
    hcur.evolves hso ⟨image, himage⟩ he⟩

theorem HostSound.ownTemp (hs : HostSound files log n p h) (hu : (h.units u).active = true)
    {g : Nat} (hg : g < 2 ^ 32) : OwnTemp p (tempName (h.units u).path p g) := by
  obtain ⟨hlt, hpath⟩ := hs.path u hu
  exact ⟨h.dir, u, g, hs.dir, hlt, hg, by rw [hpath]⟩

theorem HostSound.ownTemp_temp (hs : HostSound files log n p h) (hu : (h.units u).active = true) :
    OwnTemp p (h.temp p u) :=
  hs.ownTemp hu (Nat.mod_lt _ (Nat.two_pow_pos 32))

theorem HostSound.ownTemp_name (hs : HostSound files log n p h) (hn : n < 2 ^ 32) {l : Handle ι}
    (hl : l ∈ h.loaded) : OwnTemp p l.name := by
  obtain ⟨u, g, hu, hg, hname, -⟩ := hs.loaded l hl
  rw [hname]
  exact hs.ownTemp hu (Nat.lt_of_le_of_lt (Nat.le_trans hg (hs.gen u)) hn)

theorem Ready.evolves {ph : Phase ι} (hs : HostSound files log n p h) (hr : Ready files log p h ph)
    (he : Evolves p files files' log log') : Ready files' log' p h ph := by
  cases ph with
  | idle => trivial
  | statted u m =>
    obtain ⟨hu, image, himage⟩ := hr
    exact ⟨hu, image, he.published himage⟩
  | reading | writing => exact ⟨hr.1, hr.2.evolves (hs.isSo hr.1) he⟩
  | copied u m bytes =>
    refine ⟨hr.1, hr.2.1.evolves (hs.isSo hr.1) he, ?_⟩
    rw [he.temps _ (hs.ownTemp_temp hr.1)]
    exact hr.2.2

/-- What holds of a host is not disturbed by the others. -/
theorem HostSound.evolves (hs : HostSound files log n p h) (hn : n < 2 ^ 32) (hnn : n ≤ n')
    (he : Evolves p files files' log log') : HostSound files' log' n' p h where
  dir := hs.dir
  path := hs.path
  gen u := Nat.le_trans (hs.gen u) hnn
  loaded l hl := by
    obtain ⟨u, g, hu, hg, hname, hfile, m, hm⟩ := hs.loaded l hl
    refine ⟨u, g, hu, hg, hname, ?_, m, he.published hm⟩
    rw [he.temps _ (hs.ownTemp_name hn hl)]
    exact hfile
  handle u l hl := by
    obtain ⟨hu, hmem, hseen, hcur⟩ := hs.handle u l hl
    refine ⟨hu, hmem, ?_, hcur.evolves (hs.isSo hu) hseen he⟩
    obtain ⟨image, himage⟩ := hseen
    exact ⟨image, he.published himage⟩
  phase := hs.phase.evolves hs he

theorem Evolves.refl (p : Pid) (files : Text → Option (File ι)) (log : List (Publication ι)) :
    Evolves p files files log log :=
  ⟨List.Subset.refl _, fun _ _ _ hf => .inl hf, fun _ _ => rfl⟩

/-- A copy that another process writes. -/
theorem Evolves.write {q : Pid} {name : Text} {f : File ι} (hq : OwnTemp q name) (hne : q ≠ p) :
    Evolves p files (Function.update files name (some f)) log log where
  published := List.Subset.refl _
  libs path f' hso hf' := by
    have hne : path ≠ name := fun heq => hq.not_isSo (heq ▸ hso)
    rw [Function.update_of_ne hne] at hf'
    exact .inl hf'
  temps name' hp := by
    have hne' : name' ≠ name := fun heq => hne (hq.pid (heq ▸ hp))
    exact Function.update_of_ne hne' _ _

/-- A library that is replaced or removed. -/
theorem Evolves.lib {path : Text} {f : Option (File ι)} (hso : IsSo path) (hlog : log ⊆ log')
    (hf : ∀ f', f = some f' → ∀ image, ¬Published log path image f'.mtime) :
    Evolves p files (Function.update files path f) log log' where
  published := hlog
  libs path' f' _ hf' := by
    by_cases heq : path' = path
    · subst heq
      rw [Function.update_self] at hf'
      exact .inr (hf f' hf')
    · rw [Function.update_of_ne heq] at hf'
      exact .inl hf'
  temps name hp := by
    have hne : name ≠ path := fun heq => hp.not_isSo (heq ▸ hso)
    exact Function.update_of_ne hne _ _

end Frame

/-! ## One step -/

/-- What the steps of a run are like: every published library has an mtime of its own, the name of
a directory leaves room for the names below it, and codegen's `main` registers a unit once. -/
def Orderly (w : World ι) : Event ι → Prop
  | .publish dir unit _ m => ∀ image, ¬Published w.log (soPath dir unit) image m
  | .exec _ dir => Fits dir
  | .register p unit => ((w.hosts p).units unit).active = false
  | _ => True

section Step
variable {opens : ι → Bool} {files : Text → Option (File ι)} {log : List (Publication ι)}
  {n : Nat} {p : Pid} {h : Host ι} {u : Nat} {m : Int} {image : ι} {w w' : World ι}

theorem Ready.withPhase {ph ph' : Phase ι} (hr : Ready files log p h ph) :
    Ready files log p { h with phase := ph' } ph := by
  cases ph <;> exact hr

theorem HostSound.withPhase (hs : HostSound files log n p h) {ph : Phase ι}
    (hr : Ready files log p h ph) : HostSound files log n p { h with phase := ph } :=
  { hs with phase := hr.withPhase }

theorem HostSound.next (hs : HostSound files log n p h) (hn : n + 1 < 2 ^ 32) (u : Nat) :
    (h.units u).next = (h.units u).gen + 1 :=
  Nat.mod_eq_of_lt (Nat.lt_of_le_of_lt (Nat.succ_le_succ (hs.gen u)) hn)

/-- The next copy has a name under which nothing is mapped yet. -/
theorem HostSound.name_ne (hs : HostSound files log n p h) (hn : n + 1 < 2 ^ 32)
    (hu : (h.units u).active = true) {l : Handle ι} (hl : l ∈ h.loaded) :
    l.name ≠ h.temp p u := by
  obtain ⟨v, g, hv, hg, hname, -⟩ := hs.loaded l hl
  obtain ⟨hult, hupath⟩ := hs.path u hu
  obtain ⟨hvlt, hvpath⟩ := hs.path v hv
  have hgn : g < n + 1 := Nat.lt_succ_of_le (Nat.le_trans hg (hs.gen v))
  intro heq
  rw [hname, Host.temp, hs.next hn u, hupath, hvpath] at heq
  obtain ⟨hpath, -, hgen⟩ := tempName_inj hs.dir hs.dir hvlt hult (Nat.lt_trans hgn hn)
    (Nat.lt_of_le_of_lt (Nat.succ_le_succ (hs.gen u)) hn) heq
  rw [soPath_inj hpath] at hg
  exact Nat.not_succ_le_self _ (hgen ▸ hg)

theorem HostSound.current_write (hs : HostSound files log n p h) (hu : (h.units u).active = true)
    {v : Nat} (hv : (h.units v).active = true) {f : File ι} {bytes : Option ι}
    (hcur : Current files (h.units v).path m bytes) :
    Current (Function.update files (h.temp p u) (some f)) (h.units v).path m bytes := by
  have hne : (h.units v).path ≠ h.temp p u :=
    fun heq => (hs.ownTemp_temp hu).not_isSo (heq ▸ hs.isSo hv)
  intro f' hf'
  rw [Function.update_of_ne hne] at hf'
  exact hcur f' hf'

/-- A copy that the process itself writes. -/
theorem HostSound.write (hs : HostSound files log n p h) (hn : n + 1 < 2 ^ 32)
    (hu : (h.units u).active = true) {f : File ι} {ph : Phase ι}
    (hr : Ready (Function.update files (h.temp p u) (some f)) log p h ph) :
    HostSound (Function.update files (h.temp p u) (some f)) log n p { h with phase := ph } where
  dir := hs.dir
  path := hs.path
  gen := hs.gen
  loaded l hl := by
    obtain ⟨v, g, hv, hg, hname, ⟨m, hfile⟩, hlog⟩ := hs.loaded l hl
    refine ⟨v, g, hv, hg, hname, ⟨m, ?_⟩, hlog⟩
    rw [Function.update_of_ne (hs.name_ne hn hu hl)]
    exact hfile
  handle v l hl := by
    obtain ⟨hv, hmem, hseen, hcur⟩ := hs.handle v l hl
    exact ⟨hv, hmem, hseen, hs.current_write hu hv hcur⟩
  phase := hr.withPhase

theorem Read.write (hs : HostSound files log n p h) (hu : (h.units u).active = true) {f : File ι}
    {bytes : Option ι} (hr : Read files log (h.units u).path m bytes) :
    Read (Function.update files (h.temp p u) (some f)) log (h.units u).path m bytes :=
  ⟨hr.1, hr.2.1, hs.current_write hu hu hr.2.2⟩

/-- `dlopen` of the copy maps what was copied. -/
theorem HostSound.dlopen_temp (hs : HostSound files log n p h) (hn : n + 1 < 2 ^ 32)
    (hu : (h.units u).active = true) (hfile : files (h.temp p u) = some ⟨some image, m⟩) :
    dlopen opens files h.loaded (h.temp p u) =
      if opens image then some ⟨h.temp p u, image⟩ else none := by
  have hfind : h.loaded.find? (·.name = h.temp p u) = none :=
    List.find?_eq_none.mpr fun l hl => by simpa using hs.name_ne hn hu hl
  rw [dlopen, hfind]
  simp only [hfile]

theorem setUnit_self (x : HotUnit ι) : (h.setUnit u x).units u = x := Function.update_self _ _ _

theorem setUnit_of_ne (x : HotUnit ι) {v : Nat} (hne : v ≠ u) :
    (h.setUnit u x).units v = h.units v := Function.update_of_ne hne _ _

theorem setUnit_congr {β : Type} (f : HotUnit ι → β) {x : HotUnit ι} (hx : f x = f (h.units u))
    (v : Nat) : f ((h.setUnit u x).units v) = f (h.units v) := by
  rcases eq_or_ne v u with rfl | hne
  · rw [setUnit_self, hx]
  · rw [setUnit_of_ne x hne]

/-- The host after a load of unit `u`. -/
def Host.reloaded (h : Host ι) (u : Nat) (l : Handle ι) (m : Int) : Host ι :=
  { h.setUnit u ((h.units u).reloaded l m) with phase := .idle, loaded := l :: h.loaded }

/-- `load` takes the copy if it can be loaded, and else leaves the unit as it is. -/
theorem HostSound.load_eq (opens : ι → Bool) (hs : HostSound files log n p h)
    (hn : n + 1 < 2 ^ 32) {bytes : Option ι}
    (hr : Ready files log p h (.copied u m bytes)) :
    ∃ image, bytes = some image ∧
      h.load opens files p u m =
        if opens image then h.reloaded u ⟨h.temp p u, image⟩ m else { h with phase := .idle } := by
  obtain ⟨hu, ⟨-, ⟨image, -, rfl, -⟩, -⟩, m', hfile⟩ := hr
  refine ⟨image, rfl, ?_⟩
  rw [Host.load, hs.dlopen_temp hn hu hfile]
  cases opens image with
  | false => rfl
  | true => rfl

theorem HostSound.mono (hs : HostSound files log n p h) (hn : n < 2 ^ 32) :
    HostSound files log (n + 1) p h :=
  hs.evolves hn (Nat.le_succ n) (Evolves.refl p files log)

theorem HostSound.reloaded (hs : HostSound files log n p h) (hn : n + 1 < 2 ^ 32)
    (hr : Ready files log p h (.copied u m (some image))) :
    HostSound files log (n + 1) p (h.reloaded u ⟨h.temp p u, image⟩ m) := by
  obtain ⟨hu, ⟨hseen, ⟨image', m', himage, hpub⟩, hcur⟩, m'', hfile⟩ := hr
  obtain rfl : image = image' := Option.some.inj himage
  let x := (h.units u).reloaded ⟨h.temp p u, image⟩ m
  have hactive (v : Nat) : ((h.setUnit u x).units v).active = (h.units v).active :=
    setUnit_congr (x := x) (·.active) rfl v
  have hpath (v : Nat) : ((h.setUnit u x).units v).path = (h.units v).path :=
    setUnit_congr (x := x) (·.path) rfl v
  have hgen : ((h.setUnit u x).units u).gen = (h.units u).gen + 1 := by
    rw [setUnit_self]
    exact hs.next hn u
  refine ⟨hs.dir, fun v hv => ?_, fun v => ?_, fun l hl => ?_, fun v l hl => ?_, trivial⟩
  · change ((h.setUnit u x).units v).active = true at hv
    change v < maxUnits ∧ ((h.setUnit u x).units v).path = soPath h.dir v
    rw [hactive] at hv
    rw [hpath]
    exact hs.path v hv
  · change ((h.setUnit u x).units v).gen ≤ n + 1
    rcases eq_or_ne v u with rfl | hne
    · rw [hgen]
      exact Nat.succ_le_succ (hs.gen v)
    · rw [setUnit_of_ne x hne]
      exact Nat.le_succ_of_le (hs.gen v)
  · rcases List.mem_cons.mp hl with rfl | hold
    · refine ⟨u, (h.units u).gen + 1, (hactive u).trans hu, hgen.ge, ?_, ⟨m'', hfile⟩, m', ?_⟩
      · change h.temp p u = tempName ((h.setUnit u x).units u).path p ((h.units u).gen + 1)
        rw [hpath, ← hs.next hn u, Host.temp]
      · change Published log ((h.setUnit u x).units u).path image m'
        rwa [hpath]
    · obtain ⟨v, g, hv, hg, hname, hcopy, hlog⟩ := hs.loaded l hold
      refine ⟨v, g, (hactive v).trans hv, ?_, ?_, hcopy, ?_⟩
      · rcases eq_or_ne v u with rfl | hne
        · exact Nat.le_trans (Nat.le_succ_of_le hg) hgen.ge
        · exact hg.trans_eq (congrArg HotUnit.gen (setUnit_of_ne x hne).symm)
      · exact hname.trans (by rw [← hpath v]; rfl)
      · change ∃ m, Published log ((h.setUnit u x).units v).path l.image m
        rwa [hpath]
  · change ((h.setUnit u x).units v).handle = some l at hl
    rcases eq_or_ne v u with rfl | hne
    · rw [setUnit_self] at hl
      obtain rfl := Option.some.inj hl
      refine ⟨(hactive v).trans hu, List.mem_cons_self, ?_, ?_⟩
      · change ∃ image, Published log ((h.setUnit v x).units v).path image
          ((h.setUnit v x).units v).mtime
        rwa [setUnit_self]
      · change Current files ((h.setUnit v x).units v).path ((h.setUnit v x).units v).mtime
          (some image)
        rwa [setUnit_self]
    · have hold := setUnit_of_ne (h := h) x hne
      obtain ⟨hv, hmem, hrest⟩ := hs.handle v l (by rwa [hold] at hl)
      refine ⟨(hactive v).trans hv, List.mem_cons_of_mem _ hmem, ?_⟩
      change (∃ image, Published log ((h.setUnit u x).units v).path image
        ((h.setUnit u x).units v).mtime) ∧ Current files ((h.setUnit u x).units v).path
        ((h.setUnit u x).units v).mtime (some l.image)
      rwa [hold]

theorem HostSound.load (hs : HostSound files log n p h) (hn : n + 1 < 2 ^ 32)
    {bytes : Option ι} (hr : Ready files log p h (.copied u m bytes)) :
    HostSound files log (n + 1) p (h.load opens files p u m) := by
  obtain ⟨image, rfl, hload⟩ := hs.load_eq opens hn hr
  rw [hload]
  split
  next => exact hs.reloaded hn hr
  next => exact (hs.mono (Nat.lt_of_succ_lt hn)).withPhase trivial

theorem HostSound.started {dir : Text} (hdir : Fits dir) :
    HostSound files log n p (.started dir) where
  dir := hdir
  path _ hu := nomatch hu
  gen _ := Nat.zero_le _
  loaded _ hl := nomatch hl
  handle _ _ hl := nomatch hl
  phase := trivial

theorem HostSound.register (hs : HostSound files log n p h) (hn : n < 2 ^ 32) (hu : u < maxUnits)
    (hinactive : (h.units u).active = false) (hidle : h.phase = .idle) :
    HostSound files log (n + 1) p (h.setUnit u (archeHotRegister h.dir u)) := by
  have hmono := hs.mono hn
  have hother {v : Nat} (hv : (h.units v).active = true) :
      (h.setUnit u (archeHotRegister h.dir u)).units v = h.units v :=
    setUnit_of_ne _ fun heq => by rw [heq, hinactive] at hv; cases hv
  refine ⟨hs.dir, fun v hv => ?_, fun v => ?_, fun l hl => ?_, fun v l hl => ?_, ?_⟩
  · rcases eq_or_ne v u with rfl | hne
    · rw [setUnit_self]
      exact ⟨hu, register_path hs.dir hu⟩
    · rw [setUnit_of_ne _ hne] at hv ⊢
      exact hs.path v hv
  · rcases eq_or_ne v u with rfl | hne
    · rw [setUnit_self]
      exact Nat.zero_le _
    · rw [setUnit_of_ne _ hne]
      exact hmono.gen v
  · obtain ⟨v, g, hv, hrest⟩ := hmono.loaded l hl
    refine ⟨v, g, ?_⟩
    rw [hother hv]
    exact ⟨hv, hrest⟩
  · rcases eq_or_ne v u with rfl | hne
    · rw [setUnit_self] at hl
      cases hl
    · rw [setUnit_of_ne _ hne] at hl ⊢
      exact hmono.handle v l hl
  · change Ready files log p _ h.phase
    rw [hidle]
    trivial

end Step

section Effects
variable {opens : ι → Bool} {n : Nat} {w w' : World ι} {e : Event ι}

/-- What an event does: for each, the cases of `step`. -/
inductive Effect (opens : ι → Bool) (w : World ι) : Event ι → World ι → Prop
  | publish {dir : Text} {unit : Nat} {image : ι} {m : Int} :
    Effect opens w (.publish dir unit image m)
      { w with
        files := Function.update w.files (soPath dir unit) (some ⟨some image, m⟩)
        log := ⟨soPath dir unit, image, m⟩ :: w.log }
  | remove {dir : Text} {unit : Nat} :
    Effect opens w (.remove dir unit)
      { w with files := Function.update w.files (soPath dir unit) none }
  | exec {p : Pid} {dir : Text} :
    Effect opens w (.exec p dir) (w.setHost p (.started dir))
  | register {p : Pid} {unit : Nat} : (w.hosts p).phase = .idle → unit < maxUnits →
    Effect opens w (.register p unit)
      (w.setHost p ((w.hosts p).setUnit unit (archeHotRegister (w.hosts p).dir unit)))
  | outside {p : Pid} {unit : Nat} : ¬unit < maxUnits → Effect opens w (.register p unit) w
  | kept {p : Pid} {unit : Nat} : (w.hosts p).phase = .idle →
    (unit < maxUnits → ((w.hosts p).units unit).active = true → ∀ f,
      w.files ((w.hosts p).units unit).path = some f →
      ((w.hosts p).units unit).handle.isSome = true ∧ f.mtime = ((w.hosts p).units unit).mtime) →
    Effect opens w (.stat p unit) w
  | statted {p : Pid} {unit : Nat} {f : File ι} : (w.hosts p).phase = .idle → unit < maxUnits →
    ((w.hosts p).units unit).active = true → w.files ((w.hosts p).units unit).path = some f →
    ¬(((w.hosts p).units unit).handle.isSome = true ∧
      f.mtime = ((w.hosts p).units unit).mtime) →
    Effect opens w (.stat p unit) (w.setHost p { w.hosts p with phase := .statted unit f.mtime })
  | vanished {p : Pid} {unit : Nat} {m : Int} : (w.hosts p).phase = .statted unit m →
    w.files ((w.hosts p).units unit).path = none →
    Effect opens w (.openIn p) (w.setHost p { w.hosts p with phase := .idle })
  | opened {p : Pid} {unit : Nat} {m : Int} {f : File ι} :
    (w.hosts p).phase = .statted unit m → w.files ((w.hosts p).units unit).path = some f →
    Effect opens w (.openIn p)
      (w.setHost p { w.hosts p with phase := .reading unit m f.content })
  | refused {p : Pid} {unit : Nat} {m : Int} {bytes : Option ι} :
    (w.hosts p).phase = .reading unit m bytes →
    Effect opens w (.openOut p false) (w.setHost p { w.hosts p with phase := .idle })
  | truncated {p : Pid} {unit : Nat} {m : Int} {bytes : Option ι} :
    (w.hosts p).phase = .reading unit m bytes →
    Effect opens w (.openOut p true)
      ((w.write ((w.hosts p).temp p unit) none).setHost p
        { w.hosts p with phase := .writing unit m bytes })
  | closed {p : Pid} {unit : Nat} {m : Int} {bytes : Option ι} :
    (w.hosts p).phase = .writing unit m bytes →
    Effect opens w (.close p)
      ((w.write ((w.hosts p).temp p unit) bytes).setHost p
        { w.hosts p with phase := .copied unit m bytes })
  | loaded {p : Pid} {unit : Nat} {m : Int} {bytes : Option ι} :
    (w.hosts p).phase = .copied unit m bytes →
    Effect opens w (.load p) (w.setHost p ((w.hosts p).load opens w.files p unit m))

theorem effect_of_step (h : step opens w e = some w') : Effect opens w e w' := by
  cases e with
  | publish dir unit image m =>
    cases h
    exact .publish
  | remove dir unit =>
    cases h
    exact .remove
  | exec p dir =>
    cases h
    exact .exec
  | register p unit =>
    simp only [step] at h
    split at h
    next hidle =>
      split at h
      next hu =>
        cases h
        exact .register hidle hu
      next hu =>
        cases h
        exact .outside hu
    next => cases h
  | stat p unit =>
    simp only [step] at h
    split at h
    next hidle =>
      split at h
      next hu =>
        split at h
        next hfile =>
          cases h
          exact .kept hidle fun _ _ f hf => by rw [hfile] at hf; cases hf
        next f hfile =>
          split at h
          next hcur =>
            cases h
            exact .kept hidle fun _ _ f' hf' => by rw [hfile] at hf'; cases hf'; exact hcur
          next hcur =>
            cases h
            exact .statted hidle hu.1 hu.2 hfile hcur
      next hu =>
        cases h
        exact .kept hidle fun hlt hactive => absurd ⟨hlt, hactive⟩ hu
    next => cases h
  | openIn p =>
    simp only [step] at h
    split at h
    next unit m hph =>
      split at h
      next hfile =>
        cases h
        exact .vanished hph hfile
      next f hfile =>
        cases h
        exact .opened hph hfile
    next => cases h
  | openOut p ok =>
    simp only [step] at h
    split at h
    next unit m bytes hph =>
      cases ok with
      | true =>
        cases h
        exact .truncated hph
      | false =>
        cases h
        exact .refused hph
    next => cases h
  | close p =>
    simp only [step] at h
    split at h
    next unit m bytes hph =>
      cases h
      exact .closed hph
    next => cases h
  | load p =>
    simp only [step] at h
    split at h
    next unit m bytes hph =>
      cases h
      exact .loaded hph
    next => cases h

variable {p : Pid} {h' : Host ι} {name : Text}

theorem Sound.ready (hs : Sound n w) {ph : Phase ι} (hph : (w.hosts p).phase = ph) :
    Ready w.files w.log p (w.hosts p) ph := hph ▸ (hs.hosts p).phase

theorem Sound.mono (hs : Sound n w) (hn : n < 2 ^ 32) : Sound (n + 1) w :=
  { hs with hosts := fun p => (hs.hosts p).mono hn }

theorem Sound.setHost (hs : Sound n w) (hn : n < 2 ^ 32)
    (hh : HostSound w.files w.log (n + 1) p h') : Sound (n + 1) (w.setHost p h') where
  files := hs.files
  once := hs.once
  hosts q := by
    rcases eq_or_ne q p with rfl | hne
    · rwa [setHost_self]
    · rw [setHost_of_ne w h' hne]
      exact (hs.hosts q).mono hn

theorem Sound.writeHost (hs : Sound n w) (hn : n < 2 ^ 32) {content : Option ι}
    (hname : OwnTemp p name)
    (hh : HostSound (w.write name content).files w.log (n + 1) p h') :
    Sound (n + 1) ((w.write name content).setHost p h') where
  files path f hso hf := by
    have hne : path ≠ name := fun heq => hname.not_isSo (heq ▸ hso)
    rw [setHost_files, write_files_of_ne w content hne] at hf
    exact hs.files path f hso hf
  once := hs.once
  hosts q := by
    rcases eq_or_ne q p with rfl | hne
    · rwa [setHost_self]
    · rw [setHost_of_ne _ h' hne]
      exact (hs.hosts q).evolves hn (Nat.le_succ n) (Evolves.write hname (Ne.symm hne))

/-- A library is replaced by one that has an mtime of its own, or removed. -/
theorem Sound.lib (hs : Sound n w) (hn : n < 2 ^ 32) {path : Text} (hso : IsSo path)
    {f : Option (File ι)} {log : List (Publication ι)} (hlog : w.log ⊆ log)
    (hnew : ∀ f', f = some f' → ∀ image, ¬Published w.log path image f'.mtime)
    (hwhole : ∀ f', f = some f' → ∃ image, f'.content = some image ∧
      Published log path image f'.mtime)
    (honce : ∀ path a b m, Published log path a m → Published log path b m → a = b) :
    Sound (n + 1) { w with files := Function.update w.files path f, log := log } where
  files path' f' hso' hf' := by
    change Function.update w.files path f path' = some f' at hf'
    rcases eq_or_ne path' path with rfl | hne
    · rw [Function.update_self] at hf'
      exact hwhole f' hf'
    · rw [Function.update_of_ne hne] at hf'
      obtain ⟨image, hcontent, hpub⟩ := hs.files path' f' hso' hf'
      exact ⟨image, hcontent, hlog hpub⟩
  once := honce
  hosts p := (hs.hosts p).evolves hn (Nat.le_succ n) (Evolves.lib hso hlog hnew)

theorem Sound.step (hs : Sound n w) (hn : n + 1 < 2 ^ 32) (ho : Orderly w e)
    (h : step opens w e = some w') : Sound (n + 1) w' := by
  have hn' : n < 2 ^ 32 := Nat.lt_of_succ_lt hn
  cases effect_of_step h with
  | @publish dir unit image m =>
    refine hs.lib hn' (isSo_soPath dir unit) (List.subset_cons_self _ _) ?_ ?_ ?_
    · intro f hf
      cases hf
      exact ho
    · intro f hf
      cases hf
      exact ⟨image, rfl, List.mem_cons_self⟩
    · intro path a b m' ha hb
      rcases List.mem_cons.mp ha with ha | ha <;> rcases List.mem_cons.mp hb with hb | hb
      · cases ha
        cases hb
        rfl
      · cases ha
        exact absurd hb (ho b)
      · cases hb
        exact absurd ha (ho a)
      · exact hs.once path a b m' ha hb
  | @remove dir unit =>
    exact hs.lib hn' (isSo_soPath dir unit) (List.Subset.refl _) (fun _ h => nomatch h)
      (fun _ h => nomatch h) hs.once
  | @exec p dir =>
    exact hs.setHost hn' (HostSound.started ho)
  | @register p unit hidle hu =>
    exact hs.setHost hn' ((hs.hosts p).register hn' hu ho hidle)
  | outside | kept => exact hs.mono hn'
  | @statted p unit f hidle hu hactive hfile hcur =>
    refine hs.setHost hn' (((hs.hosts p).mono hn').withPhase ⟨hactive, ?_⟩)
    obtain ⟨image, -, hpub⟩ := hs.files _ f ((hs.hosts p).isSo hactive) hfile
    exact ⟨image, hpub⟩
  | vanished | refused => exact hs.setHost hn' (((hs.hosts _).mono hn').withPhase trivial)
  | @opened p unit m f hph hfile =>
    have hr := hs.ready hph
    obtain ⟨hactive, hseen⟩ := hr
    obtain ⟨image, hcontent, hpub⟩ := hs.files _ f ((hs.hosts p).isSo hactive) hfile
    refine hs.setHost hn' (((hs.hosts p).mono hn').withPhase
      ⟨hactive, hseen, ⟨image, f.mtime, hcontent, hpub⟩, fun f' hf' _ => ?_⟩)
    rw [hfile] at hf'
    cases hf'
    rfl
  | @truncated p unit m bytes hph =>
    have hr := hs.ready hph
    have hsp := hs.hosts p
    refine hs.writeHost hn' (hsp.ownTemp_temp hr.1) ?_
    have hready : Ready (w.write ((w.hosts p).temp p unit) none).files w.log p (w.hosts p)
        (.writing unit m bytes) :=
      ⟨hr.1, Read.write hsp hr.1 hr.2⟩
    exact (hsp.write hn hr.1 hready).mono hn'
  | @closed p unit m bytes hph =>
    have hr := hs.ready hph
    have hsp := hs.hosts p
    refine hs.writeHost hn' (hsp.ownTemp_temp hr.1) ?_
    have hready : Ready (w.write ((w.hosts p).temp p unit) bytes).files w.log p (w.hosts p)
        (.copied unit m bytes) :=
      ⟨hr.1, Read.write hsp hr.1 hr.2, 0, Function.update_self _ _ _⟩
    exact (hsp.write hn hr.1 hready).mono hn'
  | @loaded p unit m bytes hph =>
    exact hs.setHost hn' ((hs.hosts p).load hn (hs.ready hph))

/-- The events of the hosts; the others replace a library. -/
def Event.ofHost : Event ι → Bool
  | .publish .. | .remove .. => false
  | _ => true

/-- No host writes a library. -/
theorem Sound.files_of_host (hs : Sound n w) (he : e.ofHost = true)
    (h : HotReload.step opens w e = some w')
    {path : Text} (hso : IsSo path) : w'.files path = w.files path := by
  have hwrite {p : Pid} {unit : Nat} (hactive : ((w.hosts p).units unit).active = true)
      (content : Option ι) :
      (w.write ((w.hosts p).temp p unit) content).files path = w.files path := by
    refine write_files_of_ne w content fun heq => ?_
    exact ((hs.hosts p).ownTemp_temp hactive).not_isSo (heq ▸ hso)
  cases effect_of_step h with
  | publish | remove => cases he
  | @truncated p unit m bytes hph =>
    exact hwrite (hs.ready hph).1 none
  | @closed p unit m bytes hph =>
    exact hwrite (hs.ready hph).1 bytes
  | _ => rfl

/-- How things are before the first event: no host has done anything, and the directories hold
whole libraries of earlier sessions. -/
structure Start (w : World ι) : Prop where
  hosts : ∀ p, ∃ dir, Fits dir ∧ w.hosts p = .started dir
  files : ∀ path f, IsSo path → w.files path = some f →
    ∃ image, f.content = some image ∧ Published w.log path image f.mtime
  once : ∀ path a b m, Published w.log path a m → Published w.log path b m → a = b

/-- A directory without libraries. -/
def World.fresh (dir : Text) : World ι := ⟨fun _ => none, fun _ => .started dir, []⟩

theorem start_fresh {dir : Text} (hdir : Fits dir) : Start (World.fresh dir : World ι) where
  hosts _ := ⟨dir, hdir, rfl⟩
  files _ _ _ hf := nomatch hf
  once _ _ _ _ ha := nomatch ha

abbrev Steps (opens : ι → Bool) (w : World ι) (e : Event ι) (w' : World ι) : Prop :=
  step opens w e = some w'

theorem Start.sound (hw : Start w) : Sound 0 w where
  files := hw.files
  once := hw.once
  hosts p := by
    obtain ⟨dir, hdir, hhost⟩ := hw.hosts p
    rw [hhost]
    exact HostSound.started hdir

theorem Sound.run (hs : Sound n w) {es : List (Event ι)}
    (h : Run (Guarded (Steps opens) Orderly) w es w') (hlen : n + es.length < 2 ^ 32) :
    Sound (n + es.length) w' :=
  h.counted Sound hs (fun _ _ _ _ hn ha hstep => ha.step hn hstep.2 hstep.1) hlen

end Effects

/-! ## Results -/

section Results
variable {opens : ι → Bool} {n : Nat} {w w' : World ι} {e : Event ι} {es : List (Event ι)} {p : Pid}
  {unit : Nat} {f : File ι} {image : ι}

/-- What is left alone: the library of the unit is not replaced meanwhile, the process is not
replaced by another, and it can write its copies. -/
def Undisturbed (p : Pid) (path : Text) (_ : World ι) : Event ι → Prop
  | .publish dir unit _ _ | .remove dir unit => soPath dir unit ≠ path
  | .exec q _ => q ≠ p
  | .openOut q ok => q = p → ok = true
  | _ => True

/-- The unit before the file `f` with the image `image` is loaded. -/
def Before (old : Option ι) (g : Nat) (u : HotUnit ι) : Prop :=
  u.handle.map (·.image) = old ∧ u.gen = g

/-- The unit after that: it has the image if that can be loaded. -/
def After (opens : ι → Bool) (image : ι) (m : Int) (old : Option ι) (g : Nat) (u : HotUnit ι) : Prop :=
  u.handle.map (·.image) = (if opens image then some image else old) ∧ u.gen ≤ g + 1 ∧
    (opens image = true → u.handle.isSome = true ∧ u.mtime = m) ∧ (opens image = false → u.gen = g)

/-- The phases of a load of the file. -/
def Loading (f : File ι) (image : ι) (unit : Nat) (ph : Phase ι) : Prop :=
  ph = .statted unit f.mtime ∨ ph = .reading unit f.mtime (some image) ∨
    ph = .writing unit f.mtime (some image) ∨ ph = .copied unit f.mtime (some image)

/-- Where a host is that has come across the file `f`. -/
structure Seen (opens : ι → Bool) (path : Text) (f : File ι) (image : ι) (old : Option ι) (g : Nat)
    (p : Pid) (unit : Nat) (w : World ι) : Prop where
  place : ((w.hosts p).units unit).path = path
  file : w.files path = some f
  active : ((w.hosts p).units unit).active = true
  loading : (w.hosts p).phase.unit? = some unit → Loading f image unit (w.hosts p).phase
  before : (w.hosts p).phase.unit? = some unit → Before old g ((w.hosts p).units unit)
  after : (w.hosts p).phase.unit? ≠ some unit →
    After opens image f.mtime old g ((w.hosts p).units unit)

section Seen
variable {path : Text} {old : Option ι} {g : Nat}

theorem Seen.other (hs : Seen opens path f image old g p unit w) (hhost : w'.hosts p = w.hosts p)
    (hfile : w'.files path = w.files path) : Seen opens path f image old g p unit w' where
  place := hhost ▸ hs.place
  file := hfile.trans hs.file
  active := hhost ▸ hs.active
  loading := hhost ▸ hs.loading
  before := hhost ▸ hs.before
  after := hhost ▸ hs.after

/-- Process `p` is `h` from now on. -/
theorem Seen.setHost {h : Host ι} (hplace : (h.units unit).path = path)
    (hfile : w.files path = some f) (hactive : (h.units unit).active = true)
    (hload : h.phase.unit? = some unit → Loading f image unit h.phase)
    (hbefore : h.phase.unit? = some unit → Before old g (h.units unit))
    (hafter : h.phase.unit? ≠ some unit → After opens image f.mtime old g (h.units unit)) :
    Seen opens path f image old g p unit (w.setHost p h) := by
  refine ⟨?_, hfile, ?_, ?_, ?_, ?_⟩ <;> rwa [setHost_self]

/-- The host goes on to phase `ph`, and leaves the unit and its library as they are. -/
theorem Seen.advance (hs : Seen opens path f image old g p unit w) {ph : Phase ι}
    (hfile : w'.files path = some f)
    (hunit : ph.unit? = some unit → (w.hosts p).phase.unit? = some unit)
    (hunit' : ph.unit? ≠ some unit → (w.hosts p).phase.unit? ≠ some unit)
    (hload : ph.unit? = some unit → Loading f image unit ph) :
    Seen opens path f image old g p unit (w'.setHost p { w.hosts p with phase := ph }) :=
  .setHost hs.place hfile hs.active hload (fun hu => hs.before (hunit hu))
    fun hu => hs.after (hunit' hu)

/-- The host goes on with the load that it is at. -/
theorem Seen.next (hs : Seen opens path f image old g p unit w) {ph : Phase ι}
    (hfile : w'.files path = some f) (hunit : (w.hosts p).phase.unit? = ph.unit?)
    (hload : ph.unit? = some unit → Loading f image unit (w.hosts p).phase →
      Loading f image unit ph) :
    Seen opens path f image old g p unit (w'.setHost p { w.hosts p with phase := ph }) :=
  hs.advance hfile hunit.trans (fun hu heq => hu (hunit.symm.trans heq))
    fun hu => hload hu (hs.loading (hunit.trans hu))

/-- Another unit is given another record. -/
theorem Seen.setUnit (hs : Seen opens path f image old g p unit w) {h : Host ι}
    (hunits : h.units unit = (w.hosts p).units unit) (hidle : h.phase = .idle)
    (hph : (w.hosts p).phase.unit? ≠ some unit) :
    Seen opens path f image old g p unit (w.setHost p h) :=
  .setHost (by rw [hunits]; exact hs.place) hs.file (by rw [hunits]; exact hs.active)
    (by rw [hidle]; exact nofun) (by rw [hidle]; exact nofun)
    fun _ => by rw [hunits]; exact hs.after hph

theorem Seen.step (hs : Seen opens path f image old g p unit w) (hsound : Sound n w)
    (hn : n + 1 < 2 ^ 32) (hcontent : f.content = some image) (ho : Orderly w e)
    (hu : Undisturbed p path w e) (h : step opens w e = some w') :
    Seen opens path f image old g p unit w' := by
  have hsp := hsound.hosts p
  have htemp {q : Pid} {v : Nat} (hv : ((w.hosts q).units v).active = true) :
      path ≠ (w.hosts q).temp q v :=
    fun heq => ((hsound.hosts q).ownTemp_temp hv).not_isSo (heq ▸ hs.place ▸ hsp.isSo hs.active)
  cases effect_of_step h with
  | publish | remove => exact hs.other rfl (Function.update_of_ne (Ne.symm hu) _ _)
  | exec => exact hs.other (setHost_of_ne w _ (Ne.symm hu)) rfl
  | @register q v hidle hv =>
    rcases eq_or_ne p q with rfl | hne
    · have hvne : unit ≠ v := by
        rintro rfl
        exact Bool.noConfusion (hs.active.symm.trans ho)
      exact hs.setUnit (setUnit_of_ne _ hvne) hidle (by rw [hidle]; exact nofun)
    · exact hs.other (setHost_of_ne w _ hne) rfl
  | outside | kept => exact hs
  | @statted q v f' hidle hv hactive hfile hcur =>
    rcases eq_or_ne p q with rfl | hne
    · have hafter := hs.after (by rw [hidle]; exact nofun)
      rcases eq_or_ne v unit with rfl | hvne
      · -- a file that can be loaded would be the current one
        rw [hs.place, hs.file] at hfile
        obtain rfl := Option.some.inj hfile
        cases hopens : opens image with
        | true => exact absurd ⟨(hafter.2.2.1 hopens).1, (hafter.2.2.1 hopens).2.symm⟩ hcur
        | false =>
          have hold := hafter.1
          rw [hopens] at hold
          exact .setHost hs.place hs.file hs.active (fun _ => .inl rfl)
            (fun _ => ⟨hold, hafter.2.2.2 hopens⟩) fun hne => absurd rfl hne
      · have hother : (Phase.statted v f'.mtime : Phase ι).unit? = some unit → False :=
          fun heq => hvne (Option.some.inj heq)
        refine hs.advance hs.file (fun hu => (hother hu).elim) (fun _ => ?_)
          fun hu => (hother hu).elim
        rw [hidle]
        exact nofun
    · exact hs.other (setHost_of_ne w _ hne) rfl
  | @vanished q v m hph hfile =>
    rcases eq_or_ne p q with rfl | hne
    · have hvne : v ≠ unit := by
        rintro rfl
        rw [hs.place, hs.file] at hfile
        cases hfile
      refine hs.advance hs.file (fun hu => nomatch hu) (fun _ heq => hvne ?_) (fun hu => nomatch hu)
      rw [hph] at heq
      exact Option.some.inj heq
    · exact hs.other (setHost_of_ne w _ hne) rfl
  | @opened q v m f' hph hfile =>
    rcases eq_or_ne p q with rfl | hne
    · refine hs.next hs.file (by rw [hph]; rfl) fun hv hload => ?_
      obtain rfl : v = unit := Option.some.inj hv
      rw [hs.place, hs.file] at hfile
      obtain rfl := Option.some.inj hfile
      rw [hph] at hload
      obtain rfl : m = f.mtime := by
        rcases hload with heq | heq | heq | heq <;> cases heq
        rfl
      rw [hcontent]
      exact .inr (.inl rfl)
    · exact hs.other (setHost_of_ne w _ hne) rfl
  | @refused q v m bytes hph =>
    exact hs.other (setHost_of_ne w _ fun heq => Bool.noConfusion (hu heq.symm)) rfl
  | @truncated q v m bytes hph =>
    have hr := hsound.ready hph
    have hfile := write_files_of_ne w none (htemp hr.1)
    rcases eq_or_ne p q with rfl | hne
    · refine hs.next (hfile.trans hs.file) (by rw [hph]; rfl) fun hv hload => ?_
      obtain rfl : v = unit := Option.some.inj hv
      rw [hph] at hload
      rcases hload with heq | heq | heq | heq <;> cases heq
      exact .inr (.inr (.inl rfl))
    · exact hs.other (setHost_of_ne _ _ hne) hfile
  | @closed q v m bytes hph =>
    have hr := hsound.ready hph
    have hfile := write_files_of_ne w bytes (htemp hr.1)
    rcases eq_or_ne p q with rfl | hne
    · refine hs.next (hfile.trans hs.file) (by rw [hph]; rfl) fun hv hload => ?_
      obtain rfl : v = unit := Option.some.inj hv
      rw [hph] at hload
      rcases hload with heq | heq | heq | heq <;> cases heq
      exact .inr (.inr (.inr rfl))
    · exact hs.other (setHost_of_ne _ _ hne) hfile
  | @loaded q v m bytes hph =>
    rcases eq_or_ne p q with rfl | hne
    · obtain ⟨image', rfl, hload⟩ := hsp.load_eq opens hn (hsound.ready hph)
      rw [hload]
      rcases eq_or_ne v unit with rfl | hvne
      · have hthis := hs.loading (by rw [hph]; rfl)
        rw [hph] at hthis
        obtain ⟨rfl, rfl⟩ : m = f.mtime ∧ image' = image := by
          rcases hthis with heq | heq | heq | heq <;> cases heq
          exact ⟨rfl, rfl⟩
        obtain ⟨hold, hgen⟩ := hs.before (by rw [hph]; rfl)
        cases hopens : opens image' with
        | true =>
          have hself : (((w.hosts p).reloaded v ⟨(w.hosts p).temp p v, image'⟩ f.mtime).units v) =
              ((w.hosts p).units v).reloaded ⟨(w.hosts p).temp p v, image'⟩ f.mtime :=
            setUnit_self _
          rw [if_pos rfl]
          refine .setHost (by rw [hself]; exact hs.place) hs.file (by rw [hself]; exact hs.active)
            nofun nofun fun _ => ?_
          rw [hself]
          refine ⟨by simp [HotUnit.reloaded, hopens], ?_, fun _ => ⟨rfl, rfl⟩, fun h => ?_⟩
          · exact ((hsp.next hn v).trans (congrArg (· + 1) hgen)).le
          · exact Bool.noConfusion (hopens.symm.trans h)
        | false =>
          rw [if_neg Bool.false_ne_true]
          exact .setHost hs.place hs.file hs.active nofun nofun
            fun _ => ⟨by rw [hopens]; exact hold, hgen.trans_le (Nat.le_succ g),
              fun h => Bool.noConfusion (hopens.symm.trans h), fun _ => hgen⟩
      · have hph' : (w.hosts p).phase.unit? ≠ some unit := by
          rw [hph]
          exact fun heq => hvne (Option.some.inj heq)
        split
        next => exact hs.setUnit (setUnit_of_ne _ (Ne.symm hvne)) rfl hph'
        next => exact hs.setUnit rfl rfl hph'
    · exact hs.other (setHost_of_ne w _ hne) rfl

/-- `stat` comes across the file. -/
theorem Seen.stat (hsound : Sound n w) (hactive : ((w.hosts p).units unit).active = true)
    (hpath : ((w.hosts p).units unit).path = path) (hfile : w.files path = some f)
    (hcontent : f.content = some image) (h : Steps opens w (.stat p unit) w') :
    Seen opens path f image (w.code p unit) ((w.hosts p).units unit).gen p unit w' := by
  have hsp := hsound.hosts p
  cases effect_of_step h with
  | kept hidle hkept =>
    obtain ⟨hsome, hm⟩ := hkept (hsp.path unit hactive).1 hactive f (by rw [hpath, hfile])
    refine ⟨hpath, hfile, hactive, by rw [hidle]; exact nofun, by rw [hidle]; exact nofun,
      fun _ => ⟨?_, Nat.le_succ _, fun _ => ⟨hsome, hm.symm⟩, fun _ => rfl⟩⟩
    obtain ⟨l, hl⟩ := Option.isSome_iff_exists.mp hsome
    obtain ⟨-, -, -, hcur⟩ := hsp.handle unit l hl
    have himage : some image = some l.image :=
      hcontent.symm.trans (hcur f (by rw [hpath, hfile]) hm)
    rw [World.code, hl, Option.map_some, himage, ite_self]
  | @statted _ _ f' hidle hu _ hfile' hcur =>
    rw [hpath, hfile] at hfile'
    obtain rfl := Option.some.inj hfile'
    exact .setHost hpath hfile hactive (fun _ => .inl rfl) (fun _ => ⟨rfl, rfl⟩)
      fun hne => absurd rfl hne

theorem Seen.run (hs : Seen opens path f image old g p unit w) (hsound : Sound n w)
    (hcontent : f.content = some image)
    (h : Run (Guarded (Guarded (Steps opens) Orderly) (Undisturbed p path)) w es w')
    (hlen : n + es.length < 2 ^ 32) : Seen opens path f image old g p unit w' := by
  refine (h.counted (fun n w => Sound n w ∧ Seen opens path f image old g p unit w) ⟨hsound, hs⟩
    (fun n a e b hn ha hstep => ?_) hlen).2
  obtain ⟨⟨hstep, ho⟩, hu⟩ := hstep
  exact ⟨ha.1.step hn ho hstep, ha.2.step ha.1 hn hcontent ho hu hstep⟩

end Seen

end Results

end Arche.Runtime.HotReload
