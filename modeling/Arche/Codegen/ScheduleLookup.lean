import Mathlib.Data.List.Basic
import Mathlib.Data.List.TakeWhile
import Mathlib.Data.List.Perm.Basic

/-!
# The kernel a schedule entry names

The kernels of a device are called `<device>.<name>` in the program, and those of the entry file,
of a plain module and of a datasheet keep their own name. A schedule entry is `k` or `m.k`.
`cg_find_scheduled_decl` takes the first kernel with the name of the entry or with its last
segment. Unless that is a system or effectful, `find_map_decl` takes the first pure map with the
last segment of the entry.

1. `entry_resolves_iff`: an entry runs the kernel declared under its name, in every order of the
   declarations, exactly if no other kernel can be taken for it.
2. `entry_not_resolves`: of the maps `a.step` and `b.step`, the entry `b.step` runs the first.
-/

namespace Arche.Codegen.ScheduleLookup

abbrev Name := List Char

inductive KernelKind
  | map
  | system
deriving DecidableEq

/-- Where a kernel is declared. A plain module and a datasheet are `flat`. -/
inductive Home
  | entry
  | flat (m : Name)
  | device (m : Name)
deriving DecidableEq

/-- `id` tells declarations apart. -/
structure Kernel where
  id : Nat
  home : Home
  ident : Name
  noDot : '.' ∉ ident
  kind : KernelKind
  eff : Bool
deriving DecidableEq

/-- The name in the program. -/
def Kernel.name (k : Kernel) : Name :=
  match k.home with
  | .entry | .flat _ => k.ident
  | .device m => m ++ '.' :: k.ident

/-- The kernel is declared under this qualified name. -/
def Kernel.Declares (k : Kernel) (name : Name) : Prop :=
  name = k.name ∨ ∃ m, k.home = .flat m ∧ name = m ++ '.' :: k.ident

def Kernel.isPureMap (k : Kernel) : Bool := k.kind = .map && !k.eff

/-- What follows the last dot. -/
def tail (name : Name) : Name := (name.reverse.takeWhile (· ≠ '.')).reverse

/-! ## The lookups -/

def findMapDecl (ks : List Kernel) (name : Name) : Option Kernel :=
  ks.find? fun k => k.isPureMap && (k.name == name || tail k.name == tail name)

def cgFindScheduledDecl (ks : List Kernel) (name : Name) : Option Kernel :=
  ks.find? fun k => k.name == name || k.name == tail name

/-- The kernel that the `SCHED_RUN` case of `emit_sched` calls or runs as a map. -/
def emitRun (ks : List Kernel) (name : Name) : Option Kernel :=
  match cgFindScheduledDecl ks name with
  | some d => if d.kind = .system || d.eff then some d else findMapDecl ks name
  | none => findMapDecl ks name

/-- In every order of the declarations. -/
structure Resolves (ks : List Kernel) (name : Name) : Prop where
  runs : ∀ ks', ks'.Perm ks → ∀ k, emitRun ks' name = some k ↔ k ∈ ks ∧ k.Declares name
  agree : ∀ ks', ks'.Perm ks → ∀ k ∈ ks, k.Declares name →
    cgFindScheduledDecl ks' name = some k ∧
      (k.isPureMap = true → findMapDecl ks' name = some k)

/-- The condition. -/
structure Unambiguous (ks : List Kernel) (name : Name) : Prop where
  one : ∀ k ∈ ks, ∀ k' ∈ ks, k.Declares name → k'.Declares name → k = k'
  bare : ∀ k ∈ ks, k.name = tail name → k.Declares name
  tails : ∀ k ∈ ks, k.isPureMap = true → tail k.name = tail name →
    k.Declares name ∨ ∃ d ∈ ks, d.Declares name ∧ d.isPureMap = false

/-! ## Names -/

section Lookups

variable {ks ks' : List Kernel} {k d : Kernel} {name : Name}

theorem tail_of_noDot {s : Name} (h : '.' ∉ s) : tail s = s := by
  have hall : s.reverse.takeWhile (· ≠ '.') = s.reverse := by
    refine List.takeWhile_eq_self_iff.mpr fun c hc => decide_eq_true ?_
    rintro rfl
    exact h (List.mem_reverse.mp hc)
  rw [tail, hall, List.reverse_reverse]

theorem noDot_tail (name : Name) : '.' ∉ tail name := by
  intro h
  have hne := List.mem_takeWhile_imp (List.mem_reverse.mp h)
  exact of_decide_eq_true hne rfl

theorem tail_append (m : Name) {s : Name} (h : '.' ∉ s) : tail (m ++ '.' :: s) = s := by
  have hrev : (m ++ '.' :: s).reverse = s.reverse ++ '.' :: m.reverse := by simp
  have hall : ∀ c ∈ s.reverse, decide (c ≠ '.') = true := by
    intro c hc
    refine decide_eq_true ?_
    rintro rfl
    exact h (List.mem_reverse.mp hc)
  rw [tail, hrev, List.takeWhile_append_of_pos hall, List.takeWhile_cons_of_neg (by simp),
    List.append_nil, List.reverse_reverse]

/-- Both lookups take a kernel for what it is declared under. -/
theorem Kernel.Declares.matches (h : k.Declares name) :
    (k.name = name ∨ k.name = tail name) ∧ tail k.name = tail name := by
  rcases h with rfl | ⟨m, hm, rfl⟩
  · exact ⟨.inl rfl, rfl⟩
  · have hname : k.name = k.ident := by rw [Kernel.name, hm]
    rw [hname, tail_append m k.noDot, tail_of_noDot k.noDot]
    exact ⟨.inr rfl, rfl⟩

theorem not_pureMap : (k.kind = .system || k.eff) = !k.isPureMap := by
  unfold Kernel.isPureMap
  cases k.kind <;> cases k.eff <;> rfl

/-! ## First matches -/

theorem find?_unique {p : Kernel → Bool} (hd : d ∈ ks) (hp : p d = true)
    (hone : ∀ k ∈ ks, p k = true → k = d) : ks.find? p = some d := by
  cases hfind : ks.find? p with
  | none => exact absurd hp (List.find?_eq_none.mp hfind d hd)
  | some k => rw [hone k (List.mem_of_find?_eq_some hfind) (List.find?_some hfind)]

theorem exists_perm_head (h : k ∈ ks) : ∃ rest, (k :: rest).Perm ks :=
  ⟨ks.erase k, (List.perm_cons_erase h).symm⟩

theorem cgFind_eq (h : Unambiguous ks name) (hperm : ks'.Perm ks) (hd : d ∈ ks)
    (hdecl : d.Declares name) : cgFindScheduledDecl ks' name = some d := by
  refine find?_unique (hperm.mem_iff.mpr hd) ?_ fun k hk hp => ?_
  · rw [Bool.or_eq_true, beq_iff_eq, beq_iff_eq]
    exact hdecl.matches.1
  · rw [Bool.or_eq_true, beq_iff_eq, beq_iff_eq] at hp
    have hk := hperm.mem_iff.mp hk
    refine h.one k hk d hd (hp.elim (fun hname => .inl hname.symm) (h.bare k hk)) hdecl

theorem findMap_eq (h : Unambiguous ks name) (hperm : ks'.Perm ks) (hd : d ∈ ks)
    (hdecl : d.Declares name) (hmap : d.isPureMap = true) : findMapDecl ks' name = some d := by
  refine find?_unique (hperm.mem_iff.mpr hd) ?_ fun k hk hp => ?_
  · rw [Bool.and_eq_true, Bool.or_eq_true, beq_iff_eq, beq_iff_eq]
    exact ⟨hmap, .inr hdecl.matches.2⟩
  · rw [Bool.and_eq_true, Bool.or_eq_true, beq_iff_eq, beq_iff_eq] at hp
    obtain ⟨hk', htail⟩ := hp
    have hk := hperm.mem_iff.mp hk
    rcases htail with hname | htail
    · exact h.one k hk d hd (.inl hname.symm) hdecl
    · rcases h.tails k hk hk' htail with hdecl' | ⟨d', hd', hdecl', hnot⟩
      · exact h.one k hk d hd hdecl' hdecl
      · rw [h.one d' hd' d hd hdecl' hdecl, hmap] at hnot
        cases hnot

theorem emitRun_eq (h : Unambiguous ks name) (hperm : ks'.Perm ks) (hd : d ∈ ks)
    (hdecl : d.Declares name) : emitRun ks' name = some d := by
  unfold emitRun
  rw [cgFind_eq h hperm hd hdecl]
  dsimp only
  rw [not_pureMap]
  cases hmap : d.isPureMap with
  | true => exact findMap_eq h hperm hd hdecl hmap
  | false => rfl

/-- What runs is a kernel that a lookup takes for the entry. -/
theorem declares_of_emitRun (h : Unambiguous ks name) (hperm : ks'.Perm ks)
    (hrun : emitRun ks' name = some k) : k ∈ ks ∧ k.Declares name := by
  by_cases hex : ∃ d ∈ ks, d.Declares name
  · obtain ⟨d, hd, hdecl⟩ := hex
    rw [emitRun_eq h hperm hd hdecl] at hrun
    cases hrun
    exact ⟨hd, hdecl⟩
  · -- without a declaration neither lookup finds anything
    have hcg : cgFindScheduledDecl ks' name = none := by
      refine List.find?_eq_none.mpr fun k hk hp => hex ⟨k, hperm.mem_iff.mp hk, ?_⟩
      rw [Bool.or_eq_true, beq_iff_eq, beq_iff_eq] at hp
      exact hp.elim (fun hname => .inl hname.symm) (h.bare k (hperm.mem_iff.mp hk))
    have hmap : findMapDecl ks' name = none := by
      refine List.find?_eq_none.mpr fun k hk hp => hex ?_
      rw [Bool.and_eq_true, Bool.or_eq_true, beq_iff_eq, beq_iff_eq] at hp
      have hk := hperm.mem_iff.mp hk
      rcases hp.2 with hname | htail
      · exact ⟨k, hk, .inl hname.symm⟩
      · rcases h.tails k hk hp.1 htail with hdecl | ⟨d, hd, hdecl, -⟩
        · exact ⟨k, hk, hdecl⟩
        · exact ⟨d, hd, hdecl⟩
    unfold emitRun at hrun
    rw [hcg, hmap] at hrun
    cases hrun

/-! ## Kernels in the way -/

/-- A pure map with the last segment of the entry is taken if it comes first. -/
theorem findMap_head (rest : List Kernel) (hmap : k.isPureMap = true)
    (h : tail k.name = tail name) : findMapDecl (k :: rest) name = some k := by
  refine List.find?_cons_of_pos ?_
  rw [Bool.and_eq_true, Bool.or_eq_true, beq_iff_eq, beq_iff_eq]
  exact ⟨hmap, .inr h⟩

theorem emitRun_bare {rest : List Kernel} (h : k.name = tail name) :
    emitRun (k :: rest) name = some k := by
  have hcg : cgFindScheduledDecl (k :: rest) name = some k := by
    refine List.find?_cons_of_pos ?_
    rw [Bool.or_eq_true, beq_iff_eq, beq_iff_eq]
    exact .inr h
  unfold emitRun
  rw [hcg]
  dsimp only
  rw [not_pureMap]
  cases hmap : k.isPureMap with
  | false => rfl
  | true => exact findMap_head _ hmap (by rw [h, tail_of_noDot (noDot_tail name)])

theorem unambiguous_of_resolves (h : Resolves ks name) : Unambiguous ks name := by
  have hbare : ∀ k ∈ ks, k.name = tail name → k.Declares name := by
    intro k hk hname
    obtain ⟨rest, hperm⟩ := exists_perm_head hk
    exact ((h.runs _ hperm k).mp (emitRun_bare hname)).2
  refine ⟨fun k hk k' hk' hdecl hdecl' => ?_, hbare, fun k hk hmap htail => ?_⟩
  · have hrun := (h.runs ks (.refl ks) k).mpr ⟨hk, hdecl⟩
    rw [(h.runs ks (.refl ks) k').mpr ⟨hk', hdecl'⟩] at hrun
    exact (Option.some.inj hrun).symm
  · by_contra hnot
    rw [not_or] at hnot
    obtain ⟨rest, hperm⟩ := exists_perm_head hk
    have hfirst := findMap_head rest hmap htail
    have hrun : emitRun (k :: rest) name = some k := by
      unfold emitRun
      split
      · next d hcg =>
        have hd := hperm.mem_iff.mp (List.mem_of_find?_eq_some hcg)
        have hp := List.find?_some hcg
        rw [Bool.or_eq_true, beq_iff_eq, beq_iff_eq] at hp
        have hdecl : d.Declares name := hp.elim (fun hname => .inl hname.symm) (hbare d hd)
        have hpure : d.isPureMap = true := by
          by_contra hpure
          exact hnot.2 ⟨d, hd, hdecl, Bool.eq_false_iff.mpr hpure⟩
        rw [not_pureMap, hpure]
        exact hfirst
      · exact hfirst
    exact hnot.1 ((h.runs _ hperm k).mp hrun).2

end Lookups

/-! ## The theorem -/

theorem entry_resolves_iff (ks : List Kernel) (name : Name) :
    Resolves ks name ↔ Unambiguous ks name := by
  refine ⟨unambiguous_of_resolves, fun h => ⟨fun ks' hperm k => ?_, fun ks' hperm k hk hdecl => ?_⟩⟩
  · exact ⟨declares_of_emitRun h hperm, fun hk => emitRun_eq h hperm hk.1 hk.2⟩
  · exact ⟨cgFind_eq h hperm hk hdecl, findMap_eq h hperm hk hdecl⟩

/-- The map `step` of a device. -/
def stepOf (device : Char) (id : Nat) : Kernel where
  id := id
  home := .device [device]
  ident := ['s', 't', 'e', 'p']
  noDot := by decide
  kind := .map
  eff := false

theorem entry_not_resolves :
    ¬ Resolves [stepOf 'a' 0, stepOf 'b' 1] ['b', '.', 's', 't', 'e', 'p'] := by
  intro h
  have hrun : emitRun [stepOf 'a' 0, stepOf 'b' 1] ['b', '.', 's', 't', 'e', 'p'] =
      some (stepOf 'b' 1) :=
    (h.runs _ (.refl _) _).mpr ⟨by simp, .inl rfl⟩
  revert hrun
  decide +kernel

end Arche.Codegen.ScheduleLookup
