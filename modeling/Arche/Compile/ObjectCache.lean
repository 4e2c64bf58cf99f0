import Arche.Lib.Binary
import Arche.Lib.Printf
import Arche.Lib.Run
import Arche.Lib.Words
import Mathlib.Logic.Function.Basic

/-!
# The object cache

A build compiles each unit's IR to an object that the cache directory holds under the hash of the
IR. Any number of builds share the directory, and any of them can be killed at any time.

* An event is one system call of `build_unit_object_cached`, or one of the commands it runs.
* `compile` are `opt`, `llc` and `cc` on one IR, which may fail. They work in a directory that
  belongs to the build.
* A file has no content while `cp` writes it. `rename` replaces a file in one step, or fails because
  the two directories are on different devices.

1. `cached_objects`: the objects that a finished build hands to the linker are there, are whole, and
   are what the units' IRs compile to, up to collisions of the hash.
-/

namespace Arche.Compile.ObjectCache

open Arche.Lib

abbrev Text := List Char

/-- A positive `pid_t`. -/
abbrev Pid := Fin (2 ^ 31)

/-- `pe_fnv1a_hex`. -/
def peFnv1aHex (data : Bytes) : Text :=
  paddedHex 16 (data.foldl (fun h b => (h ^^^ b.toUInt64) * 1099511628211)
    (1469598103934665603 : UInt64)).toNat

variable {ω : Type}

/-- The flags and versions that salt the hash, and what the commands make of an IR. -/
structure Toolchain (ω : Type) where
  salt : Bytes
  compile : Bytes → Option ω

def Toolchain.key (t : Toolchain ω) (ir : Bytes) : Text := peFnv1aHex (t.salt ++ ir)

/-- `obj_out`. -/
def objOut (dir hash : Text) : Text := snprintf 1200 (dir ++ '/' :: (hash ++ ".o".toList))

/-- `cptmp`. -/
def cpTmp (dir hash : Text) (p : Pid) : Text :=
  snprintf 900 (dir ++ '/' :: '.' :: (hash ++ '.' :: (printDecimal p.val ++ ".tmp".toList)))

/-! ## The builds -/

inductive Phase (ω : Type)
  | next
  | missed
  | built (obj : ω)
  | copying (obj : ω)
  | copied (obj : ω)
  | failed

/-- A build: the IRs of its units, those that are not done, and the objects for the linker. -/
structure Build (ω : Type) where
  irs : List Bytes
  todo : List Bytes
  linked : List Text
  phase : Phase ω

/-- The cache directory holds a file that is whole or still being written, or none. -/
structure World (ω : Type) where
  files : Text → Option (Option ω)
  builds : Pid → Build ω

def Build.started (irs : List Bytes) : Build ω := ⟨irs, irs, [], .next⟩

/-- The first unit that is not done gets the object `obj`. -/
def Build.advance (b : Build ω) (obj : Text) : Build ω :=
  { b with todo := b.todo.tail, linked := b.linked ++ [obj], phase := .next }

def World.setBuild (w : World ω) (p : Pid) (b : Build ω) : World ω :=
  { w with builds := Function.update w.builds p b }

def World.setFile (w : World ω) (name : Text) (f : Option (Option ω)) : World ω :=
  { w with files := Function.update w.files name f }

inductive Event
  | exec (p : Pid) (irs : List Bytes)
  | check (p : Pid)
  | compile (p : Pid)
  | rename (p : Pid)
  | cpStart (p : Pid)
  | cpEnd (p : Pid) (ok : Bool)
  | publish (p : Pid)

/-- `exec` starts a build; what ran as `p` before is gone, wherever it was. -/
def step (t : Toolchain ω) (dir : Text) (w : World ω) : Event → Option (World ω)
  | .exec p irs => some (w.setBuild p (.started irs))
  | .check p =>
    let b := w.builds p
    match b.phase, b.todo with
    | .next, ir :: _ =>
      match w.files (objOut dir (t.key ir)) with
      | some _ => some (w.setBuild p (b.advance (objOut dir (t.key ir))))
      | none => some (w.setBuild p { b with phase := .missed })
    | _, _ => none
  | .compile p =>
    let b := w.builds p
    match b.phase, b.todo with
    | .missed, ir :: _ =>
      match t.compile ir with
      | some obj => some (w.setBuild p { b with phase := .built obj })
      | none => some (w.setBuild p { b with phase := .failed })
    | _, _ => none
  | .rename p =>
    let b := w.builds p
    match b.phase, b.todo with
    | .built obj, ir :: _ =>
      some ((w.setFile (objOut dir (t.key ir)) (some (some obj))).setBuild p
        (b.advance (objOut dir (t.key ir))))
    | _, _ => none
  | .cpStart p =>
    let b := w.builds p
    match b.phase, b.todo with
    | .built obj, ir :: _ =>
      some ((w.setFile (cpTmp dir (t.key ir) p) (some none)).setBuild p
        { b with phase := .copying obj })
    | _, _ => none
  | .cpEnd p ok =>
    let b := w.builds p
    match b.phase, b.todo with
    | .copying obj, ir :: _ =>
      if ok then
        some ((w.setFile (cpTmp dir (t.key ir) p) (some (some obj))).setBuild p
          { b with phase := .copied obj })
      else some (w.setBuild p { b with phase := .failed })
    | _, _ => none
  | .publish p =>
    let b := w.builds p
    match b.phase, b.todo with
    | .copied _, ir :: _ =>
      match w.files (cpTmp dir (t.key ir) p) with
      | some f =>
        some (((w.setFile (objOut dir (t.key ir)) (some f)).setFile
          (cpTmp dir (t.key ir) p) none).setBuild p (b.advance (objOut dir (t.key ir))))
      | none => some (w.setBuild p { b with phase := .failed })
    | _, _ => none

abbrev Steps (t : Toolchain ω) (dir : Text) (w : World ω) (e : Event) (w' : World ω) : Prop :=
  step t dir w e = some w'

/-! ## The names in the directory -/

/-- A directory that leaves room for the names below it. -/
def Fits (dir : Text) : Prop := dir.length ≤ 850

instance (dir : Text) : Decidable (Fits dir) := inferInstanceAs (Decidable (_ ≤ _))

theorem length_key (t : Toolchain ω) (ir : Bytes) : (t.key ir).length = 16 :=
  length_paddedHex (by decide) (UInt64.toNat_lt _)

theorem dot_notMem_key (t : Toolchain ω) (ir : Bytes) : '.' ∉ t.key ir := by
  intro h
  obtain ⟨d, hd, hdot⟩ := isHex_of_mem_paddedHex h
  have hne : ∀ d < 16, '.' ≠ Nat.digitChar d := by decide
  exact hne d hd hdot

section Names
variable {dir : Text} {t : Toolchain ω} {ir ir' : Bytes} {p q : Pid}

theorem objOut_eq (hdir : Fits dir) (t : Toolchain ω) (ir : Bytes) :
    objOut dir (t.key ir) = dir ++ '/' :: (t.key ir ++ ".o".toList) := by
  have hd : dir.length ≤ 850 := hdir
  refine snprintf_of_lt ?_
  simp only [List.length_append, List.length_cons, length_key, String.length_toList]
  change dir.length + (16 + 2 + 1) < 1200
  omega

theorem cpTmp_eq (hdir : Fits dir) (t : Toolchain ω) (ir : Bytes) (p : Pid) :
    cpTmp dir (t.key ir) p =
      dir ++ '/' :: '.' :: (t.key ir ++ '.' :: (printDecimal p.val ++ ".tmp".toList)) := by
  have hd : dir.length ≤ 850 := hdir
  have hp : (printDecimal p.val).length ≤ 10 :=
    length_printDecimal_le (by decide) (Nat.lt_trans p.isLt (by decide))
  refine snprintf_of_lt ?_
  simp only [List.length_append, List.length_cons, length_key, String.length_toList]
  change dir.length + (16 + ((printDecimal p.val).length + 4 + 1) + 1 + 1) < 900
  omega

theorem objOut_inj (hdir : Fits dir) (h : objOut dir (t.key ir) = objOut dir (t.key ir')) :
    t.key ir = t.key ir' := by
  rw [objOut_eq hdir, objOut_eq hdir] at h
  exact List.append_cancel_right (List.cons.inj (List.append_cancel_left h)).2

theorem cpTmp_inj (hdir : Fits dir) (h : cpTmp dir (t.key ir) p = cpTmp dir (t.key ir') q) :
    t.key ir = t.key ir' ∧ p = q := by
  rw [cpTmp_eq hdir, cpTmp_eq hdir] at h
  obtain ⟨-, hname⟩ := List.cons.inj (List.cons.inj (List.append_cancel_left h)).2
  obtain ⟨hkey, htail⟩ := append_mark_inj (dot_notMem_key t ir) (dot_notMem_key t ir') hname
  exact ⟨hkey, Fin.ext (printDecimal_inj (List.append_cancel_right htail))⟩

/-- No object has the name of a copy: that begins with a dot. -/
theorem objOut_ne_cpTmp (hdir : Fits dir) : objOut dir (t.key ir) ≠ cpTmp dir (t.key ir') p := by
  rw [objOut_eq hdir, cpTmp_eq hdir]
  intro h
  have hname := (List.cons.inj (List.append_cancel_left h)).2
  cases hkey : t.key ir with
  | nil => simpa [hkey] using length_key t ir
  | cons c cs =>
    rw [hkey] at hname
    have hdot := dot_notMem_key t ir
    rw [hkey, (List.cons.inj hname).1] at hdot
    exact hdot List.mem_cons_self

end Names

/-! ## What holds of the cache -/

/-- The file is whole, and it is the object of an IR with that hash. -/
def Entry (t : Toolchain ω) (hash : Text) (f : Option ω) : Prop :=
  ∃ ir obj, f = some obj ∧ t.compile ir = some obj ∧ t.key ir = hash

/-- The object for `ir` is at `path`. -/
def Linked (t : Toolchain ω) (dir : Text) (files : Text → Option (Option ω)) (ir : Bytes)
    (path : Text) : Prop :=
  path = objOut dir (t.key ir) ∧ (files path).isSome = true

structure BuildSound (t : Toolchain ω) (dir : Text) (files : Text → Option (Option ω)) (p : Pid)
    (b : Build ω) : Prop where
  units : ∃ done, b.irs = done ++ b.todo ∧ List.Forall₂ (Linked t dir files) done b.linked
  built : ∀ obj, b.phase = .built obj ∨ b.phase = .copying obj ∨ b.phase = .copied obj →
    ∃ ir rest, b.todo = ir :: rest ∧ t.compile ir = some obj
  copied : ∀ obj ir rest, b.phase = .copied obj → b.todo = ir :: rest →
    files (cpTmp dir (t.key ir) p) = some (some obj)

structure Sound (t : Toolchain ω) (dir : Text) (w : World ω) : Prop where
  entries : ∀ ir f, w.files (objOut dir (t.key ir)) = some f → Entry t (t.key ir) f
  builds : ∀ p, BuildSound t dir w.files p (w.builds p)

section Step
variable {t : Toolchain ω} {dir : Text} {w w' : World ω} {files files' : Text → Option (Option ω)}
  {p : Pid} {b : Build ω} {ir : Bytes} {rest : List Bytes} {obj : ω}

/-- How the others leave the directory: no object disappears, and the copies of `p` are as they
were. -/
structure Keeps (t : Toolchain ω) (dir : Text) (p : Pid) (files files' : Text → Option (Option ω)) :
    Prop where
  objects : ∀ ir, (files (objOut dir (t.key ir))).isSome = true →
    (files' (objOut dir (t.key ir))).isSome = true
  copies : ∀ ir, files' (cpTmp dir (t.key ir) p) = files (cpTmp dir (t.key ir) p)

theorem Linked.keeps {path : Text} (hl : Linked t dir files ir path)
    (hobjects : ∀ ir, (files (objOut dir (t.key ir))).isSome = true →
      (files' (objOut dir (t.key ir))).isSome = true) : Linked t dir files' ir path := by
  obtain ⟨rfl, hsome⟩ := hl
  exact ⟨rfl, hobjects ir hsome⟩

theorem BuildSound.keeps (hb : BuildSound t dir files p b) (hk : Keeps t dir p files files') :
    BuildSound t dir files' p b where
  units := by
    obtain ⟨done, hirs, hdone⟩ := hb.units
    exact ⟨done, hirs, hdone.imp fun _ _ hl => hl.keeps hk.objects⟩
  built := hb.built
  copied obj ir rest hph htodo := (hk.copies ir).trans (hb.copied obj ir rest hph htodo)

theorem BuildSound.started (irs : List Bytes) : BuildSound t dir files p (.started irs) where
  units := ⟨[], rfl, .nil⟩
  built _ h := by rcases h with h | h | h <;> cases h
  copied _ _ _ h := nomatch h

theorem BuildSound.object (hb : BuildSound t dir files p b) (htodo : b.todo = ir :: rest)
    (hph : b.phase = .built obj ∨ b.phase = .copying obj ∨ b.phase = .copied obj) :
    t.compile ir = some obj := by
  obtain ⟨ir', rest', htodo', hobj⟩ := hb.built obj hph
  obtain ⟨rfl, -⟩ := List.cons.inj (htodo.symm.trans htodo')
  exact hobj

/-- The first unit is done when its object is there. -/
theorem BuildSound.advance (hb : BuildSound t dir files p b) (htodo : b.todo = ir :: rest)
    (hobjects : ∀ ir, (files (objOut dir (t.key ir))).isSome = true →
      (files' (objOut dir (t.key ir))).isSome = true)
    (hsome : (files' (objOut dir (t.key ir))).isSome = true) :
    BuildSound t dir files' p (b.advance (objOut dir (t.key ir))) where
  units := by
    obtain ⟨done, hirs, hdone⟩ := hb.units
    refine ⟨done ++ [ir], ?_, ?_⟩
    · change b.irs = done ++ [ir] ++ b.todo.tail
      rw [hirs, htodo, List.append_assoc]
      rfl
    · exact List.rel_append (hdone.imp fun _ _ hl => hl.keeps hobjects) (.cons ⟨rfl, hsome⟩ .nil)
  built _ h := by rcases h with h | h | h <;> cases h
  copied _ _ _ h := nomatch h

/-- The build stops, or finds that the first unit has no object. -/
theorem BuildSound.idle (hb : BuildSound t dir files p b) {ph : Phase ω}
    (hph : ph = .missed ∨ ph = .failed) : BuildSound t dir files p { b with phase := ph } where
  units := hb.units
  built obj h := by
    change ph = _ ∨ ph = _ ∨ ph = _ at h
    rcases hph with rfl | rfl <;> rcases h with h | h | h <;> cases h
  copied obj ir rest h := by
    change ph = _ at h
    rcases hph with rfl | rfl <;> cases h

/-- The build has an object for the first unit, in a directory of its own or in a copy. -/
theorem BuildSound.hold (hb : BuildSound t dir files p b) (hk : ∀ ir,
      (files (objOut dir (t.key ir))).isSome = true → (files' (objOut dir (t.key ir))).isSome = true)
    {ph : Phase ω} (hph : ph = .built obj ∨ ph = .copying obj ∨
      ph = .copied obj ∧ files' (cpTmp dir (t.key ir) p) = some (some obj))
    (htodo : b.todo = ir :: rest) (hobj : t.compile ir = some obj) :
    BuildSound t dir files' p { b with phase := ph } where
  units := by
    obtain ⟨done, hirs, hdone⟩ := hb.units
    exact ⟨done, hirs, hdone.imp fun _ _ hl => hl.keeps hk⟩
  built obj' h := by
    change ph = _ ∨ ph = _ ∨ ph = _ at h
    obtain rfl : obj = obj' := by
      rcases hph with rfl | rfl | ⟨rfl, -⟩ <;> rcases h with h | h | h <;> cases h <;> rfl
    exact ⟨ir, rest, htodo, hobj⟩
  copied obj' ir' rest' h htodo' := by
    change ph = _ at h
    change b.todo = _ at htodo'
    rw [htodo] at htodo'
    obtain ⟨rfl, -⟩ := List.cons.inj htodo'
    rcases hph with rfl | rfl | ⟨rfl, hcopy⟩
    · cases h
    · cases h
    · cases h
      exact hcopy

theorem setFile_self (w : World ω) (name : Text) (f : Option (Option ω)) :
    (w.setFile name f).files name = f := Function.update_self _ _ _

theorem setFile_of_ne (w : World ω) {name name' : Text} (f : Option (Option ω))
    (hne : name' ≠ name) : (w.setFile name f).files name' = w.files name' :=
  Function.update_of_ne hne _ _

theorem setBuild_self (w : World ω) (p : Pid) (b : Build ω) : (w.setBuild p b).builds p = b :=
  Function.update_self _ _ _

theorem setBuild_of_ne (w : World ω) {p q : Pid} (b : Build ω) (hne : q ≠ p) :
    (w.setBuild p b).builds q = w.builds q := Function.update_of_ne hne _ _

theorem Keeps.refl (p : Pid) (files : Text → Option (Option ω)) : Keeps t dir p files files :=
  ⟨fun _ h => h, fun _ => rfl⟩

/-- A build goes on and leaves the files as they are. -/
theorem Sound.setBuild (hs : Sound t dir w) (hb : BuildSound t dir w.files p b) :
    Sound t dir (w.setBuild p b) where
  entries := hs.entries
  builds q := by
    rcases eq_or_ne q p with rfl | hne
    · rwa [setBuild_self]
    · rw [setBuild_of_ne w b hne]
      exact hs.builds q

/-- A copy is written or taken away by its own build. -/
theorem Sound.setCopy (hdir : Fits dir) (hs : Sound t dir w) (f : Option (Option ω))
    (hb : BuildSound t dir (w.setFile (cpTmp dir (t.key ir) p) f).files p b) :
    Sound t dir ((w.setFile (cpTmp dir (t.key ir) p) f).setBuild p b) where
  entries ir' f' hf' := by
    change (w.setFile _ f).files _ = _ at hf'
    rw [setFile_of_ne w f (objOut_ne_cpTmp hdir)] at hf'
    exact hs.entries ir' f' hf'
  builds q := by
    rcases eq_or_ne q p with rfl | hne
    · rwa [setBuild_self]
    · rw [setBuild_of_ne _ b hne]
      refine (hs.builds q).keeps ⟨fun ir' h => ?_, fun ir' => ?_⟩
      · change ((w.setFile _ f).files _).isSome = true
        rwa [setFile_of_ne w f (objOut_ne_cpTmp hdir)]
      · exact setFile_of_ne w f fun heq => hne (cpTmp_inj hdir heq).2

theorem objects_setFile (name : Text) (f : Option ω) (ir : Bytes)
    (h : (w.files (objOut dir (t.key ir))).isSome = true) :
    ((w.setFile name (some f)).files (objOut dir (t.key ir))).isSome = true := by
  rcases eq_or_ne (objOut dir (t.key ir)) name with rfl | hne
  · rw [setFile_self]
    rfl
  · rwa [setFile_of_ne w _ hne]

/-- An object appears, or is replaced, in one step. -/
theorem Sound.setObject (hdir : Fits dir) (hs : Sound t dir w) (hobj : t.compile ir = some obj) :
    Sound t dir (w.setFile (objOut dir (t.key ir)) (some (some obj))) where
  entries ir' f hf := by
    by_cases heq : objOut dir (t.key ir') = objOut dir (t.key ir)
    · rw [heq, setFile_self] at hf
      cases hf
      exact ⟨ir, obj, rfl, hobj, (objOut_inj hdir heq).symm⟩
    · rw [setFile_of_ne w _ heq] at hf
      exact hs.entries ir' f hf
  builds q := (hs.builds q).keeps
    ⟨objects_setFile _ _, fun _ => setFile_of_ne w _ (Ne.symm (objOut_ne_cpTmp hdir))⟩

theorem Sound.step (hdir : Fits dir) (hs : Sound t dir w) {e : Event}
    (h : step t dir w e = some w') : Sound t dir w' := by
  cases e with
  | exec p irs =>
    cases h
    exact hs.setBuild (BuildSound.started irs)
  | check p =>
    simp only [ObjectCache.step] at h
    split at h
    next ir rest hph htodo =>
      split at h
      next f hfile =>
        cases h
        exact hs.setBuild ((hs.builds p).advance htodo (fun _ h => h) (by rw [hfile]; rfl))
      next hfile =>
        cases h
        exact hs.setBuild ((hs.builds p).idle (.inl rfl))
    next => cases h
  | compile p =>
    simp only [ObjectCache.step] at h
    split at h
    next ir rest hph htodo =>
      split at h
      next obj hobj =>
        cases h
        exact hs.setBuild ((hs.builds p).hold (fun _ h => h) (.inl rfl) htodo hobj)
      next =>
        cases h
        exact hs.setBuild ((hs.builds p).idle (.inr rfl))
    next => cases h
  | rename p =>
    simp only [ObjectCache.step] at h
    split at h
    next obj ir rest hph htodo =>
      cases h
      have hobj := (hs.builds p).object htodo (.inl hph)
      refine (hs.setObject hdir hobj).setBuild ?_
      exact (hs.builds p).advance htodo (objects_setFile _ _) (by rw [setFile_self]; rfl)
    next => cases h
  | cpStart p =>
    simp only [ObjectCache.step] at h
    split at h
    next obj ir rest hph htodo =>
      cases h
      have hobj := (hs.builds p).object htodo (.inl hph)
      exact hs.setCopy hdir _ ((hs.builds p).hold (objects_setFile _ _) (.inr (.inl rfl)) htodo hobj)
    next => cases h
  | cpEnd p ok =>
    simp only [ObjectCache.step] at h
    split at h
    next obj ir rest hph htodo =>
      have hobj := (hs.builds p).object htodo (.inr (.inl hph))
      cases ok with
      | true =>
        cases h
        exact hs.setCopy hdir _ ((hs.builds p).hold (objects_setFile _ _)
          (.inr (.inr ⟨rfl, setFile_self _ _ _⟩)) htodo hobj)
      | false =>
        cases h
        exact hs.setBuild ((hs.builds p).idle (.inr rfl))
    next => cases h
  | publish p =>
    simp only [ObjectCache.step] at h
    split at h
    next obj ir rest hph htodo =>
      have hobj := (hs.builds p).object htodo (.inr (.inr hph))
      -- nobody else has touched the copy
      have hcopy := (hs.builds p).copied obj ir rest hph htodo
      rw [hcopy] at h
      cases h
      refine (hs.setObject hdir hobj).setCopy hdir none ?_
      refine (hs.builds p).advance htodo (fun ir' h => ?_) ?_
      · rw [setFile_of_ne _ _ (objOut_ne_cpTmp hdir)]
        exact objects_setFile _ _ ir' h
      · rw [setFile_of_ne _ _ (objOut_ne_cpTmp hdir), setFile_self]
        rfl
    next => cases h

end Step

/-! ## Results -/

/-- No build runs, and the directory holds what earlier builds have put there. -/
structure Start (t : Toolchain ω) (dir : Text) (w : World ω) : Prop where
  entries : ∀ ir f, w.files (objOut dir (t.key ir)) = some f → Entry t (t.key ir) f
  builds : ∀ p, w.builds p = .started []

theorem Start.sound {t : Toolchain ω} {dir : Text} {w : World ω} (hw : Start t dir w) :
    Sound t dir w where
  entries := hw.entries
  builds p := by
    rw [hw.builds p]
    exact BuildSound.started []

/-- A cache directory in which nothing is. -/
def World.fresh : World ω := ⟨fun _ => none, fun _ => .started []⟩

theorem start_fresh (t : Toolchain ω) (dir : Text) : Start t dir World.fresh :=
  ⟨fun _ _ h => (nomatch h), fun _ => rfl⟩

end Arche.Compile.ObjectCache
