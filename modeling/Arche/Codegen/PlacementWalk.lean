import Arche.Codegen.GpuCoherence
import Arche.Codegen.JointPlacement
import Mathlib.Algebra.Order.BigOperators.Group.List

/-!
# Placement of the maps of a schedule

`cg_joint_walk` goes over the schedule, cuts the runs of GPU-eligible maps into clusters
and flushes each of them. A decision is kept under the name of the map, and the emission of a
run takes the first one of that name unless a pin comes before it.

* Whether a map is eligible and for which pool, the capacities and the footprints are given.
* The walk and the emission look maps up by two rules, `cg_find_scheduled_decl` and
  `find_map_decl`.
* `outside`, `clusters` and `Group.Assumes` say what the walk is about: the runs that stand in no
  sequence, the groups of runs, and what the cheapest assignment of a group does with a run.

1. `jointWalk_eq`: the walk records the decisions of the groups, up to 256 runs of each.
2. `placements_consistent_iff`: every eligible run has its own decision and is emitted with it
   exactly if the schedule is `Settled`.
3. `not_placements_consistent`: a map alone in a loop has no decision.
-/

namespace Arche.Codegen.PlacementWalk

open Arche.Lib JointPlacement
open Arche.Semantic.Schedule (Tree)
open GpuCoherence (nameTail)

/-! ## Declarations -/

/-- What the pass asks of the program. `gpuPool` is the pool of a map whose query, columns and body
have a GPU form. -/
structure Program where
  kernels : List Kernel
  gpuPool : Kernel → Option String
  capacity : String → Int
  footprint : Kernel → List String
  profile : MachineProfile
  costs : CostModel

namespace Program

variable (P : Program)

/-- `cg_find_scheduled_decl`. -/
def findScheduledDecl (sym : String) : Option Kernel :=
  P.kernels.find? fun k => k.name == sym || k.name == nameTail sym

/-- `find_map_decl`. -/
def findMapDecl (sym : String) : Option Kernel :=
  P.kernels.find? fun k =>
    (k.isMap && !k.eff) && (k.name == sym || nameTail k.name == nameTail sym)

/-- `cg_map_gpu_eligible`. -/
def gpuEligible (k : Kernel) : Option String := if k.isMap && !k.eff then P.gpuPool k else none

/-- The eligible map that a name runs. -/
def eligibleRun (sym : String) : Option (Kernel × String) :=
  (P.findScheduledDecl sym).bind fun k => (P.gpuEligible k).map (k, ·)

end Program

/-! ## The walk -/

section Walk

variable (P : Program)

/-- One step of `cg_joint_collect_host_pools`. -/
def addPool (pools : List String) (pool : String) : List String :=
  if pools.contains pool then pools else if pools.length < 64 then pools ++ [pool] else pools

mutual

/-- `cg_joint_collect_host_pools`. -/
def collectHostPools (pools : List String) : Tree → List String
  | .run sym =>
    match P.findScheduledDecl sym with
    | none => pools
    | some k => if (P.gpuEligible k).isSome then pools else (P.footprint k).foldl addPool pools
  | .seq cs | .par cs => collectHostPoolsAll pools cs
  | .loop c | .whenT _ c => collectHostPools pools c
  | .halt | .gpuSync _ => pools

def collectHostPoolsAll (pools : List String) : List Tree → List String
  | [] => pools
  | c :: cs => collectHostPoolsAll (collectHostPools pools c) cs

end

/-- A map joins the cluster. There is room for 256. -/
def joinCluster (cl : Cluster) (k : Kernel) (pool : String) : Cluster where
  pool := some pool
  rows := P.capacity pool
  maps := if cl.maps.length < 256 then cl.maps ++ [k] else cl.maps
  maxNcol := if k.paramCount > cl.maxNcol then k.paramCount else cl.maxNcol

mutual

/-- `cg_joint_walk`. -/
def jointWalk (inLoop : Bool) (hostPools : List String) (t : Table) : Tree → Table
  | .seq cs | .par cs => jointWalkSeq inLoop hostPools t .empty cs
  | .loop c => jointWalk true (collectHostPools P [] c) t c
  | .whenT _ c => jointWalk inLoop hostPools t c
  | .run _ | .halt | .gpuSync _ => t

/-- `cg_joint_walk_seq`, from the cluster that is forming. -/
def jointWalkSeq (inLoop : Bool) (hostPools : List String) (t : Table) (cl : Cluster) :
    List Tree → Table
  | [] => (jointFlush P.profile P.costs t cl inLoop hostPools).1
  | .run sym :: cs =>
    match P.eligibleRun sym with
    | some (k, pool) =>
      let r := if cl.pool.isSome && cl.pool != some pool then
          jointFlush P.profile P.costs t cl inLoop hostPools
        else (t, cl)
      jointWalkSeq inLoop hostPools r.1 (joinCluster P r.2 k pool) cs
    | none =>
      let r := jointFlush P.profile P.costs t cl inLoop hostPools
      jointWalkSeq inLoop hostPools r.1 r.2 cs
  | c :: cs =>
    let r := jointFlush P.profile P.costs t cl inLoop hostPools
    jointWalkSeq inLoop hostPools (jointWalk inLoop hostPools r.1 c) r.2 cs

end

/-! ## The emission -/

/-- What comes before the walk's decisions: `ARCHE_FORCE_PLACE`, `ARCHE_FORCE_PLACE_ONLY` and the
measured placements. -/
structure Pins where
  force : Option Bool
  only : Option String
  measured : String → Option Bool

/-- The placement of a map that is pinned. -/
def Pins.pinned (e : Pins) (k : Kernel) : Option Bool :=
  if k.isGpu then some true
  else
    match e.force, e.only with
    | some g, _ => some g
    | none, some name => some (name == k.name)
    | none, none => e.measured k.name

/-- `cg_placement_prefer_gpu`. -/
def preferGpu (p : MachineProfile) (k : Kernel) (rows : Int) : Bool :=
  if !p.gpuPresent || decide (p.gpuGflops ≤ 0) || decide (p.cpuGflops ≤ 0) || decide (rows ≤ 0) then false
  else
    let flops : ℚ := k.flopsPerElem * rows
    let bytes : ℚ := k.paramCount * 4 * rows
    let up := if p.pcieUpGbps > 0 then bytes / (p.pcieUpGbps * 10 ^ 9) else inf
    let down := if p.pcieDownGbps > 0 then bytes / (p.pcieDownGbps * 10 ^ 9) else inf
    decide ((p.gpuLaunchUs + p.gpuXferUs) * (1 / 1000000) + up + down +
      flops / (p.gpuGflops * 10 ^ 9) < flops / (p.cpuGflops * 10 ^ 9))

/-- `cg_placement_decide`. -/
def placementDecide (e : Pins) (t : Table) (k : Kernel) : Bool :=
  match e.pinned k with
  | some g => g
  | none =>
    match t.lookup k.name with
    | some g => g
    | none => preferGpu P.profile k (((P.gpuEligible k).map P.capacity).getD 0)

/-! ## The runs of a schedule -/

def eligibleRuns (sym : String) : List (String × Kernel) :=
  ((P.eligibleRun sym).map fun r => (sym, r.1)).toList

mutual

/-- The eligible runs, in the order of the schedule. -/
def runs : Tree → List (String × Kernel)
  | .run sym => eligibleRuns P sym
  | .seq cs | .par cs => runsAll cs
  | .loop c | .whenT _ c => runs c
  | .halt | .gpuSync _ => []

def runsAll : List Tree → List (String × Kernel)
  | [] => []
  | c :: cs => runs c ++ runsAll cs

end

mutual

/-- The eligible runs that are no child of a `seq` or `par`. -/
def outside : Tree → List (String × Kernel)
  | .run sym => eligibleRuns P sym
  | .seq cs | .par cs => outsideAll cs
  | .loop c | .whenT _ c => outside c
  | .halt | .gpuSync _ => []

def outsideAll : List Tree → List (String × Kernel)
  | [] => []
  | .run _ :: cs => outsideAll cs
  | c :: cs => outside c ++ outsideAll cs

end

/-- Runs over one pool that follow one another, and whether they stand in a loop with host steps that
touch `hostPools`. -/
structure Group where
  pool : String
  members : List (String × Kernel)
  inLoop : Bool
  hostPools : List String

mutual

def clusters (inLoop : Bool) (hostPools : List String) : Tree → List Group
  | .seq cs | .par cs => clustersAll inLoop hostPools none cs
  | .loop c => clusters true (collectHostPools P [] c) c
  | .whenT _ c => clusters inLoop hostPools c
  | .run _ | .halt | .gpuSync _ => []

/-- The groups of the children of a sequence, with the one that is forming. -/
def clustersAll (inLoop : Bool) (hostPools : List String) (forming : Option Group) :
    List Tree → List Group
  | [] => forming.toList
  | .run sym :: cs =>
    match P.eligibleRun sym with
    | some (k, pool) =>
      match forming with
      | some g =>
        if g.pool = pool then
          clustersAll inLoop hostPools (some { g with members := g.members ++ [(sym, k)] }) cs
        else g :: clustersAll inLoop hostPools (some ⟨pool, [(sym, k)], inLoop, hostPools⟩) cs
      | none => clustersAll inLoop hostPools (some ⟨pool, [(sym, k)], inLoop, hostPools⟩) cs
    | none => forming.toList ++ clustersAll inLoop hostPools none cs
  | c :: cs =>
    forming.toList ++ clusters inLoop hostPools c ++ clustersAll inLoop hostPools none cs

end

/-- The widest parameter list. -/
def widest (rs : List (String × Kernel)) : Nat :=
  rs.foldl (fun n r => if r.2.paramCount > n then r.2.paramCount else n) 0

/-- A group as a cluster. -/
def Group.cluster (g : Group) : Cluster :=
  ⟨some g.pool, P.capacity g.pool, g.members.map (·.2), widest g.members⟩

/-- The costs decide, and no assignment is cheaper or as cheap and later to leave the host, or to change
the device. Where they do not decide every map is on the host. -/
def Group.Cheapest (g : Group) (devs : List Bool) : Prop :=
  let cl := g.cluster P
  let resident := isResident g.inLoop g.hostPools g.pool
  devs.length = g.members.length ∧
    if P.profile.decides cl then
      ∀ others : List Bool, others.length = g.members.length →
        Chain.Wins (P.costs.xf cl) (Chain.arrive (P.costs.xf cl) (initCost resident))
          (chain (cl.costs P.costs)) resident false devs.reverse others.reverse
    else ∀ d ∈ devs, d = false

/-- The cheapest assignment of a group puts one of its runs on device `d`. -/
def Group.Assumes (g : Group) (r : String × Kernel) (d : Bool) : Prop :=
  ∃ devs, g.Cheapest P devs ∧ (r, d) ∈ g.members.zip devs

/-! ## The two sides -/

/-- Every eligible run has an entry of its own, and is emitted on the device of the entry. -/
def Consistent (e : Pins) (t : Table) (tree : Tree) : Prop :=
  ∃ entries, jointWalk P false [] t tree = t ++ entries ∧
    List.Forall₂ (fun r entry => r.2.name = entry.1 ∧
        ∃ k, P.findMapDecl r.1 = some k ∧ k.name = r.2.name ∧
          placementDecide P e (t ++ entries) k = entry.2)
      (runs P tree) entries

/-- No eligible run stands outside of a sequence, a group has at most 256 runs, the emission finds the
map of each run, and what the cheapest assignment of a group does with a map is what its pin says, or
else its entry of an earlier walk, or else what every other group does with it. -/
structure Settled (e : Pins) (t : Table) (tree : Tree) : Prop where
  inside : outside P tree = []
  room : ∀ g ∈ clusters P false [] tree, g.members.length ≤ 256
  found : ∀ g ∈ clusters P false [] tree, ∀ r ∈ g.members,
    ∃ k, P.findMapDecl r.1 = some k ∧ k.name = r.2.name
  agree : ∀ g ∈ clusters P false [] tree, ∀ r d, g.Assumes P r d →
    ∀ k, P.findMapDecl r.1 = some k →
      match e.pinned k with
      | some o => d = o
      | none =>
        match t.lookup k.name with
        | some o => d = o
        | none => ∀ g' ∈ clusters P false [] tree, ∀ r' d', g'.Assumes P r' d' →
            r'.2.name = k.name → d' = d

variable {P}

/-! ## The walk records the groups -/

/-- The cluster of a group as the walk has it. -/
def formed (P : Program) (g : Group) : Cluster :=
  { g.cluster P with maps := (g.members.map (·.2)).take 256 }

/-- What the flush of a group records. -/
def entries (P : Program) (g : Group) : Table :=
  ((formed P g).maps.zip ((formed P g).decisions P.profile P.costs g.inLoop g.hostPools g.pool)).map
    fun d => (d.1.name, d.2)

def formedOf (P : Program) (forming : Option Group) : Cluster :=
  match forming with
  | none => .empty
  | some g => formed P g

theorem jointFlush_formed {inLoop : Bool} {hostPools : List String} {forming : Option Group}
    (hf : ∀ g ∈ forming, g.inLoop = inLoop ∧ g.hostPools = hostPools) (t : Table) :
    jointFlush P.profile P.costs t (formedOf P forming) inLoop hostPools =
      (t ++ forming.toList.flatMap (entries P), .empty) := by
  cases forming with
  | none => simp [formedOf, jointFlush, Cluster.empty]
  | some g =>
    obtain ⟨rfl, rfl⟩ := hf g rfl
    have hrec := jointFlush_eq P.profile P.costs t (show (formed P g).pool = some g.pool from rfl)
      g.inLoop g.hostPools
    refine Prod.ext ?_ rfl
    rw [formedOf, hrec, Option.toList_some, List.flatMap_singleton]
    rfl

theorem joinCluster_empty (k : Kernel) (sym pool : String) (inLoop : Bool) (hostPools : List String) :
    joinCluster P .empty k pool = formed P ⟨pool, [(sym, k)], inLoop, hostPools⟩ := by
  simp [joinCluster, Cluster.empty, formed, Group.cluster, widest]

theorem joinCluster_formed (g : Group) (k : Kernel) (sym : String) :
    joinCluster P (formed P g) k g.pool = formed P { g with members := g.members ++ [(sym, k)] } := by
  have hmaps : (if ((g.members.map (·.2)).take 256).length < 256
      then (g.members.map (·.2)).take 256 ++ [k] else (g.members.map (·.2)).take 256) =
      ((g.members ++ [(sym, k)]).map (·.2)).take 256 := by
    rw [List.map_append, List.map_singleton]
    split
    · next h =>
      have hlt : (g.members.map (·.2)).length < 256 := by
        rw [List.length_take] at h
        omega
      rw [List.take_of_length_le (by omega), List.take_of_length_le]
      rw [List.length_append, List.length_singleton]
      omega
    · next h =>
      rw [List.take_append_of_le_length]
      rw [List.length_take] at h
      omega
  refine (Cluster.mk.injEq ..).mpr ⟨rfl, rfl, hmaps, ?_⟩
  show _ = widest (g.members ++ [(sym, k)])
  rw [widest, List.foldl_append]
  rfl

theorem jointWalkSeq_other {c : Tree} (hc : ∀ sym, c ≠ .run sym) (inLoop : Bool)
    (hostPools : List String) (t : Table) (cl : Cluster) (cs : List Tree) :
    jointWalkSeq P inLoop hostPools t cl (c :: cs) =
      jointWalkSeq P inLoop hostPools
        (jointWalk P inLoop hostPools (jointFlush P.profile P.costs t cl inLoop hostPools).1 c)
        (jointFlush P.profile P.costs t cl inLoop hostPools).2 cs := by
  cases c with
  | run sym => exact absurd rfl (hc sym)
  | _ => rw [jointWalkSeq]; exact hc

theorem clustersAll_other {c : Tree} (hc : ∀ sym, c ≠ .run sym) (inLoop : Bool)
    (hostPools : List String) (forming : Option Group) (cs : List Tree) :
    clustersAll P inLoop hostPools forming (c :: cs) =
      forming.toList ++ clusters P inLoop hostPools c ++ clustersAll P inLoop hostPools none cs := by
  cases c with
  | run sym => exact absurd rfl (hc sym)
  | _ => rw [clustersAll]; exact hc

theorem outsideAll_other {c : Tree} (hc : ∀ sym, c ≠ .run sym) (cs : List Tree) :
    outsideAll P (c :: cs) = outside P c ++ outsideAll P cs := by
  cases c with
  | run sym => exact absurd rfl (hc sym)
  | _ => rw [outsideAll]; exact hc

/-- What a walk of the children does, from a walk of the first one that is no run. -/
theorem jointWalkSeq_step {c : Tree} {cs : List Tree} {inLoop : Bool} {hostPools : List String}
    (hc : ∀ sym, c ≠ .run sym)
    (hhead : ∀ t, jointWalk P inLoop hostPools t c =
      t ++ (clusters P inLoop hostPools c).flatMap (entries P))
    (htail : ∀ t, jointWalkSeq P inLoop hostPools t .empty cs =
      t ++ (clustersAll P inLoop hostPools none cs).flatMap (entries P))
    {forming : Option Group} (hf : ∀ g ∈ forming, g.inLoop = inLoop ∧ g.hostPools = hostPools)
    (t : Table) :
    jointWalkSeq P inLoop hostPools t (formedOf P forming) (c :: cs) =
      t ++ (clustersAll P inLoop hostPools forming (c :: cs)).flatMap (entries P) := by
  rw [jointWalkSeq_other hc, jointFlush_formed hf, hhead, htail, clustersAll_other hc,
    List.flatMap_append, List.flatMap_append, List.append_assoc, List.append_assoc, List.append_assoc]

mutual

theorem jointWalk_eq (inLoop : Bool) (hostPools : List String) :
    (tree : Tree) → (t : Table) → jointWalk P inLoop hostPools t tree =
      t ++ (clusters P inLoop hostPools tree).flatMap (entries P)
  | .seq cs, t => by
    rw [jointWalk, clusters]
    exact jointWalkSeq_eq inLoop hostPools cs none nofun t
  | .par cs, t => by
    rw [jointWalk, clusters]
    exact jointWalkSeq_eq inLoop hostPools cs none nofun t
  | .loop c, t => by
    rw [jointWalk, clusters]
    exact jointWalk_eq true _ c t
  | .whenT _ c, t => by
    rw [jointWalk, clusters]
    exact jointWalk_eq inLoop hostPools c t
  | .run _, t => by simp [jointWalk, clusters]
  | .halt, t => by simp [jointWalk, clusters]
  | .gpuSync _, t => by simp [jointWalk, clusters]

theorem jointWalkSeq_eq (inLoop : Bool) (hostPools : List String) :
    (cs : List Tree) → (forming : Option Group) →
      (∀ g ∈ forming, g.inLoop = inLoop ∧ g.hostPools = hostPools) → (t : Table) →
      jointWalkSeq P inLoop hostPools t (formedOf P forming) cs =
        t ++ (clustersAll P inLoop hostPools forming cs).flatMap (entries P)
  | [], forming, hf, t => by rw [jointWalkSeq, clustersAll, jointFlush_formed hf]
  | .run sym :: cs, forming, hf, t => by
    rw [jointWalkSeq, clustersAll]
    cases hrun : P.eligibleRun sym with
    | none =>
      simp only
      rw [jointFlush_formed hf, List.flatMap_append, ← List.append_assoc]
      exact jointWalkSeq_eq inLoop hostPools cs none nofun _
    | some r =>
      obtain ⟨k, pool⟩ := r
      have hsingle : ∀ g ∈ some (⟨pool, [(sym, k)], inLoop, hostPools⟩ : Group),
          g.inLoop = inLoop ∧ g.hostPools = hostPools := by
        rintro g ⟨⟩
        exact ⟨rfl, rfl⟩
      cases forming with
      | none =>
        have hjoin := joinCluster_empty (P := P) k sym pool inLoop hostPools
        simp only [formedOf, Cluster.empty, Option.isSome_none, Bool.false_and, Bool.false_eq_true,
          if_false] at hjoin ⊢
        rw [hjoin]
        exact jointWalkSeq_eq inLoop hostPools cs _ hsingle t
      | some g =>
        obtain ⟨hloop, hhost⟩ := hf g rfl
        by_cases hpool : g.pool = pool
        · subst hpool
          have hsame : ((formedOf P (some g)).pool.isSome &&
              (formedOf P (some g)).pool != some g.pool) = false := by
            simp [formedOf, formed, Group.cluster]
          simp only [hsame, Bool.false_eq_true, if_false, if_true]
          rw [formedOf, joinCluster_formed g k sym]
          exact jointWalkSeq_eq inLoop hostPools cs (some _)
            (by rintro g' ⟨⟩; exact ⟨hloop, hhost⟩) t
        · have hdiff : ((formedOf P (some g)).pool.isSome &&
              (formedOf P (some g)).pool != some pool) = true := by
            simp [formedOf, formed, Group.cluster, hpool]
          simp only [hdiff, if_true, hpool, if_false]
          rw [jointFlush_formed hf, joinCluster_empty k sym pool inLoop hostPools, List.flatMap_cons,
            ← List.append_assoc]
          simp only [Option.toList_some, List.flatMap_singleton]
          exact jointWalkSeq_eq inLoop hostPools cs _ hsingle _
  | .seq ds :: cs, _, hf, t =>
    jointWalkSeq_step (by nofun) (jointWalk_eq inLoop hostPools (.seq ds))
      (jointWalkSeq_eq inLoop hostPools cs none nofun) hf t
  | .par ds :: cs, _, hf, t =>
    jointWalkSeq_step (by nofun) (jointWalk_eq inLoop hostPools (.par ds))
      (jointWalkSeq_eq inLoop hostPools cs none nofun) hf t
  | .loop c :: cs, _, hf, t =>
    jointWalkSeq_step (by nofun) (jointWalk_eq inLoop hostPools (.loop c))
      (jointWalkSeq_eq inLoop hostPools cs none nofun) hf t
  | .whenT s c :: cs, _, hf, t =>
    jointWalkSeq_step (by nofun) (jointWalk_eq inLoop hostPools (.whenT s c))
      (jointWalkSeq_eq inLoop hostPools cs none nofun) hf t
  | .halt :: cs, _, hf, t =>
    jointWalkSeq_step (by nofun) (jointWalk_eq inLoop hostPools .halt)
      (jointWalkSeq_eq inLoop hostPools cs none nofun) hf t
  | .gpuSync s :: cs, _, hf, t =>
    jointWalkSeq_step (by nofun) (jointWalk_eq inLoop hostPools (.gpuSync s))
      (jointWalkSeq_eq inLoop hostPools cs none nofun) hf t

end

/-! ## The groups have the runs that stand in a sequence -/

/-- `ms` are some of `rs`, in order, and the others are as many as `out`. -/
def Covers (ms rs out : List (String × Kernel)) : Prop :=
  ms.Sublist rs ∧ rs.length = out.length + ms.length

theorem Covers.append {ms rs out ms' rs' out' : List (String × Kernel)} (h : Covers ms rs out)
    (h' : Covers ms' rs' out') : Covers (ms ++ ms') (rs ++ rs') (out ++ out') := by
  refine ⟨h.1.append h'.1, ?_⟩
  rw [List.length_append, List.length_append, List.length_append, h.2, h'.2]
  omega

theorem Covers.all (ms : List (String × Kernel)) : Covers ms ms [] := ⟨.refl ms, by simp⟩

/-- The runs of a group that is forming. -/
def pending (forming : Option Group) : List (String × Kernel) :=
  forming.toList.flatMap (·.members)

/-- The first child is no run: what is forming is closed, and the child has its own groups. -/
theorem covers_step {c : Tree} {cs : List Tree} {inLoop : Bool} {hostPools : List String}
    (hc : ∀ sym, c ≠ .run sym)
    (hhead : Covers ((clusters P inLoop hostPools c).flatMap (·.members)) (runs P c) (outside P c))
    (htail : Covers ((clustersAll P inLoop hostPools none cs).flatMap (·.members)) (runsAll P cs)
      (outsideAll P cs))
    (forming : Option Group) :
    Covers ((clustersAll P inLoop hostPools forming (c :: cs)).flatMap (·.members))
      (pending forming ++ runsAll P (c :: cs)) (outsideAll P (c :: cs)) := by
  rw [clustersAll_other hc, outsideAll_other hc, runsAll, List.flatMap_append, List.flatMap_append,
    List.append_assoc]
  exact (Covers.all (pending forming)).append (hhead.append htail)

mutual

theorem covers (inLoop : Bool) (hostPools : List String) : (tree : Tree) →
    Covers ((clusters P inLoop hostPools tree).flatMap (·.members)) (runs P tree) (outside P tree)
  | .seq cs => by
    rw [clusters, runs, outside]
    exact coversAll inLoop hostPools cs none
  | .par cs => by
    rw [clusters, runs, outside]
    exact coversAll inLoop hostPools cs none
  | .loop c => by
    rw [clusters, runs, outside]
    exact covers true _ c
  | .whenT _ c => by
    rw [clusters, runs, outside]
    exact covers inLoop hostPools c
  | .run sym => ⟨by simp [clusters], by simp [clusters, runs, outside]⟩
  | .halt => ⟨by simp [clusters], by simp [clusters, runs, outside]⟩
  | .gpuSync _ => ⟨by simp [clusters], by simp [clusters, runs, outside]⟩

theorem coversAll (inLoop : Bool) (hostPools : List String) : (cs : List Tree) →
    (forming : Option Group) →
    Covers ((clustersAll P inLoop hostPools forming cs).flatMap (·.members))
      (pending forming ++ runsAll P cs) (outsideAll P cs)
  | [], forming => by
    rw [clustersAll, runsAll, outsideAll, List.append_nil]
    exact Covers.all _
  | .run sym :: cs, forming => by
    rw [clustersAll, runsAll, outsideAll, runs, eligibleRuns]
    cases P.eligibleRun sym with
    | none =>
      simp only [Option.map_none, Option.toList_none, List.nil_append, List.flatMap_append]
      exact (Covers.all (pending forming)).append (coversAll inLoop hostPools cs none)
    | some r =>
      obtain ⟨k, pool⟩ := r
      have hnew := coversAll inLoop hostPools cs (some ⟨pool, [(sym, k)], inLoop, hostPools⟩)
      simp only [Option.map_some, Option.toList_some]
      cases forming with
      | none => exact hnew
      | some g =>
        by_cases hpool : g.pool = pool
        · simp only [hpool, if_true]
          have := coversAll inLoop hostPools cs (some { g with members := g.members ++ [(sym, k)] })
          simp only [pending, Option.toList_some, List.flatMap_singleton, List.append_assoc] at this ⊢
          exact hpool ▸ this
        · simp only [hpool, if_false, List.flatMap_cons]
          have hg : pending (some g) = g.members := List.flatMap_singleton _ _
          rw [hg]
          exact (Covers.all g.members).append hnew
  | .seq ds :: cs, forming =>
    covers_step (by nofun) (covers inLoop hostPools (.seq ds)) (coversAll inLoop hostPools cs none) forming
  | .par ds :: cs, forming =>
    covers_step (by nofun) (covers inLoop hostPools (.par ds)) (coversAll inLoop hostPools cs none) forming
  | .loop c :: cs, forming =>
    covers_step (by nofun) (covers inLoop hostPools (.loop c)) (coversAll inLoop hostPools cs none) forming
  | .whenT s c :: cs, forming =>
    covers_step (by nofun) (covers inLoop hostPools (.whenT s c))
      (coversAll inLoop hostPools cs none) forming
  | .halt :: cs, forming =>
    covers_step (by nofun) (covers inLoop hostPools .halt) (coversAll inLoop hostPools cs none) forming
  | .gpuSync s :: cs, forming =>
    covers_step (by nofun) (covers inLoop hostPools (.gpuSync s))
      (coversAll inLoop hostPools cs none) forming

end

/-! ## What the groups decide -/

/-- The runs of a group with the decisions of its flush. -/
def choices (P : Program) (g : Group) : List ((String × Kernel) × Bool) :=
  g.members.zip ((formed P g).decisions P.profile P.costs g.inLoop g.hostPools g.pool)

theorem length_entries (g : Group) : (entries P g).length = min 256 g.members.length := by
  rw [entries, List.length_map, List.length_zip, length_decisions, Nat.min_self]
  simp [formed]

theorem formed_of_room {g : Group} (h : g.members.length ≤ 256) : formed P g = g.cluster P := by
  refine (Cluster.mk.injEq ..).mpr ⟨rfl, rfl, ?_, rfl⟩
  exact List.take_of_length_le (by rwa [List.length_map])

theorem entries_of_room {g : Group} (h : g.members.length ≤ 256) :
    entries P g = (choices P g).map fun c => (c.1.2.name, c.2) := by
  rw [entries, choices, formed_of_room h]
  simp only [Group.cluster, List.zip_map_left, List.map_map]
  rfl

theorem members_of_choices {g : Group} (h : g.members.length ≤ 256) :
    (choices P g).map (·.1) = g.members := by
  rw [choices]
  apply List.map_fst_zip
  rw [length_decisions]
  simp [formed, h]

/-- The decisions of a group are its cheapest assignment. -/
theorem cheapest_iff {g : Group} (h : g.members.length ≤ 256) (devs : List Bool) :
    g.Cheapest P devs ↔
      devs = (formed P g).decisions P.profile P.costs g.inLoop g.hostPools g.pool := by
  rw [formed_of_room h]
  have hlen : ((g.cluster P).decisions P.profile P.costs g.inLoop g.hostPools g.pool).length =
      g.members.length := by
    rw [length_decisions]
    simp [Group.cluster]
  have hcosts (others : List Bool) (ho : others.length = g.members.length) :
      others.length = ((g.cluster P).costs P.costs).length := by
    rw [ho, Cluster.costs, List.length_map]
    simp [Group.cluster]
  unfold Group.Cheapest
  constructor
  · rintro ⟨hdevs, hcheap⟩
    unfold Cluster.decisions at hlen ⊢
    split at hcheap
    · next hd =>
      rw [if_pos hd] at hlen ⊢
      have hwins := jointAssign_wins (P.costs.xf (g.cluster P))
        (isResident g.inLoop g.hostPools g.pool) (fun d => rfl) (hcosts devs hdevs)
      have hrev := (hcheap _ hlen).antisymm (by simp [hdevs, hlen]) hwins
      exact List.reverse_injective hrev
    · next hd =>
      rw [if_neg hd]
      refine List.ext_getElem (by simp [hdevs, Group.cluster]) fun i hi _ => ?_
      rw [List.getElem_map]
      exact hcheap _ (List.getElem_mem hi)
  · rintro rfl
    refine ⟨hlen, ?_⟩
    unfold Cluster.decisions
    split
    · exact fun others ho => jointAssign_wins _ _ (fun d => rfl) (hcosts others ho)
    · intro d hd
      rw [List.mem_map] at hd
      obtain ⟨_, -, rfl⟩ := hd
      rfl

theorem assumes_iff {g : Group} (h : g.members.length ≤ 256) (r : String × Kernel) (d : Bool) :
    g.Assumes P r d ↔ (r, d) ∈ choices P g := by
  constructor
  · rintro ⟨devs, hdevs, hmem⟩
    rw [(cheapest_iff h devs).mp hdevs] at hmem
    exact hmem
  · exact fun hmem => ⟨_, (cheapest_iff h _).mpr rfl, hmem⟩

/-- Two names of one map are looked up to one declaration. -/
theorem findMapDecl_eq {s s' : String} {k k' : Kernel} (h : P.findMapDecl s = some k)
    (h' : P.findMapDecl s' = some k') (hname : k.name = k'.name) : k = k' := by
  have hfind {p q : Kernel → Bool} (hpk : p k' = true) (hqk : q k = true) : ∀ l : List Kernel,
      l.find? p = some k → l.find? q = some k' → k = k' := by
    intro l
    induction l with
    | nil => nofun
    | cons a l ih =>
      intro hp hq
      rw [List.find?_cons] at hp hq
      split at hp
      · cases hp
        rw [hqk] at hq
        exact Option.some.inj hq
      · next hpa =>
        split at hq
        · cases hq
          exact absurd hpk (by rw [hpa]; decide)
        · exact ih hp hq
  have hp := List.find?_some h
  have hq := List.find?_some h'
  rw [Bool.and_eq_true] at hp hq
  refine hfind ?_ ?_ P.kernels h h'
  · rw [Bool.and_eq_true, ← hname]
    exact ⟨hq.1, hp.2⟩
  · rw [Bool.and_eq_true, hname]
    exact ⟨hp.1, hq.2⟩

/-! ## When the placements are consistent -/

/-- All the choices of a schedule. -/
def allChoices (P : Program) (tree : Tree) : List ((String × Kernel) × Bool) :=
  (clusters P false [] tree).flatMap (choices P)

/-- If as much is recorded as there are runs, no group is cut. -/
theorem room_of_length {gs : List Group}
    (h : (gs.flatMap (entries P)).length = (gs.flatMap (·.members)).length) :
    ∀ g ∈ gs, g.members.length ≤ 256 := by
  have hle : ∀ gs : List Group,
      (gs.flatMap (entries P)).length ≤ (gs.flatMap (·.members)).length := by
    intro gs
    induction gs with
    | nil => exact Nat.le_refl 0
    | cons g gs ih =>
      rw [List.flatMap_cons, List.flatMap_cons, List.length_append, List.length_append, length_entries]
      omega
  induction gs with
  | nil => simp
  | cons g gs ih =>
    have hrest := hle gs
    rw [List.flatMap_cons, List.flatMap_cons, List.length_append, List.length_append,
      length_entries] at h
    rw [List.forall_mem_cons]
    exact ⟨by omega, ih (by omega)⟩

theorem entries_eq {gs : List Group} (h : ∀ g ∈ gs, g.members.length ≤ 256) :
    gs.flatMap (entries P) = (gs.flatMap (choices P)).map fun c => (c.1.2.name, c.2) := by
  rw [List.map_flatMap]
  exact List.flatMap_congr fun g hg => entries_of_room (h g hg)

theorem members_eq {gs : List Group} (h : ∀ g ∈ gs, g.members.length ≤ 256) :
    gs.flatMap (·.members) = (gs.flatMap (choices P)).map (·.1) := by
  rw [List.map_flatMap]
  exact List.flatMap_congr fun g hg => (members_of_choices (h g hg)).symm

/-- A choice is emitted as it was made. -/
def Emitted (P : Program) (e : Pins) (t : Table) (tree : Tree) (c : (String × Kernel) × Bool) : Prop :=
  ∃ k, P.findMapDecl c.1.1 = some k ∧ k.name = c.1.2.name ∧
    placementDecide P e (t ++ (allChoices P tree).map fun c => (c.1.2.name, c.2)) k = c.2

theorem consistent_iff (e : Pins) (t : Table) (tree : Tree) :
    Consistent P e t tree ↔
      outside P tree = [] ∧ (∀ g ∈ clusters P false [] tree, g.members.length ≤ 256) ∧
        ∀ c ∈ allChoices P tree, Emitted P e t tree c := by
  obtain ⟨hsub, hlen⟩ := covers (P := P) false [] tree
  have hsame : ∀ {l : List (String × Kernel)} {f : (String × Kernel) × Bool → String × Bool}
      {R : String × Kernel → String × Bool → Prop}, l = (allChoices P tree).map (·.1) →
      (List.Forall₂ R l ((allChoices P tree).map f) ↔ ∀ c ∈ allChoices P tree, R c.1 (f c)) := by
    rintro l f R rfl
    rw [List.forall₂_map_left_iff, List.forall₂_map_right_iff, List.forall₂_same]
  constructor
  · rintro ⟨ents, hwalk, hall⟩
    rw [jointWalk_eq, List.append_cancel_left_eq] at hwalk
    subst hwalk
    have hcount := hall.length_eq
    have hroom : ∀ g ∈ clusters P false [] tree, g.members.length ≤ 256 := room_of_length (P := P) (by
      have hle : ((clusters P false [] tree).flatMap (entries P)).length ≤
          ((clusters P false [] tree).flatMap (·.members)).length := by
        simp only [List.length_flatMap, length_entries]
        exact List.sum_le_sum fun g _ => Nat.min_le_right _ _
      omega)
    have hents := entries_eq (P := P) hroom
    have hmem := members_eq (P := P) hroom
    have hfull : ((clusters P false [] tree).flatMap (·.members)).length = (runs P tree).length := by
      rw [hcount, hents, hmem, List.length_map, List.length_map]
    have hruns := (hsub.eq_of_length hfull).symm.trans hmem
    rw [hents] at hall
    refine ⟨List.eq_nil_of_length_eq_zero (by omega), hroom, fun c hc => ?_⟩
    exact ((hsame hruns).mp hall c hc).2
  · rintro ⟨hout, hroom, hall⟩
    have hents := entries_eq (P := P) hroom
    have hmem := members_eq (P := P) hroom
    rw [hout, List.length_nil, Nat.zero_add] at hlen
    have hruns := (hsub.eq_of_length hlen.symm).symm.trans hmem
    refine ⟨_, by rw [jointWalk_eq, hents], ?_⟩
    exact (hsame hruns).mpr fun c hc => ⟨rfl, hall c hc⟩

/-- The entry that a run of the map finds. -/
theorem lookup_choices {cs : List ((String × Kernel) × Bool)} {c : (String × Kernel) × Bool}
    (hc : c ∈ cs) : ∃ c' ∈ cs, c'.1.2.name = c.1.2.name ∧
      (cs.map fun c => (c.1.2.name, c.2)).lookup c.1.2.name = some c'.2 := by
  induction cs with
  | nil => cases hc
  | cons a cs ih =>
    by_cases hname : c.1.2.name = a.1.2.name
    · exact ⟨a, List.mem_cons_self, hname.symm, by simp [hname]⟩
    · rcases List.mem_cons.mp hc with rfl | hmem
      · exact absurd rfl hname
      · obtain ⟨c', hc', hn, hlook⟩ := ih hmem
        refine ⟨c', List.mem_cons_of_mem _ hc', hn, ?_⟩
        rw [List.map_cons, List.lookup_cons, beq_false_of_ne hname]
        exact hlook

theorem decide_cases (e : Pins) (t s : Table) (k : Kernel) {g : Bool}
    (hs : s.lookup k.name = some g) :
    placementDecide P e (t ++ s) k =
      match e.pinned k with
      | some o => o
      | none =>
        match t.lookup k.name with
        | some o => o
        | none => g := by
  unfold placementDecide
  cases e.pinned k with
  | some o => rfl
  | none =>
    simp only [List.lookup_append]
    cases t.lookup k.name with
    | some o => rfl
    | none => simp [hs]

/-- Every eligible run has a decision of its own and is emitted with it exactly if the schedule is
settled. -/
theorem placements_consistent_iff (P : Program) (e : Pins) (t : Table) (tree : Tree) :
    Consistent P e t tree ↔ Settled P e t tree := by
  rw [consistent_iff]
  have hchoice {g : Group} (hroom : ∀ g ∈ clusters P false [] tree, g.members.length ≤ 256)
      (hg : g ∈ clusters P false [] tree) {r : String × Kernel} {d : Bool} (h : g.Assumes P r d) :
      (r, d) ∈ allChoices P tree :=
    List.mem_flatMap.mpr ⟨g, hg, (assumes_iff (hroom g hg) r d).mp h⟩
  constructor
  · rintro ⟨hout, hroom, hall⟩
    refine ⟨hout, hroom, fun g hg r hr => ?_, fun g hg r d hd k hk => ?_⟩
    · rw [← members_of_choices (hroom g hg), List.mem_map] at hr
      obtain ⟨c, hc, rfl⟩ := hr
      obtain ⟨k, hk, hname, -⟩ := hall c (List.mem_flatMap.mpr ⟨g, hg, hc⟩)
      exact ⟨k, hk, hname⟩
    · have hmem := hchoice hroom hg hd
      obtain ⟨k', hk', hname, hdec⟩ := hall _ hmem
      obtain rfl : k = k' := Option.some.inj (hk.symm.trans hk')
      obtain ⟨c₀, hc₀, hname₀, hlook⟩ := lookup_choices hmem
      rw [← hname] at hlook
      rw [decide_cases e t _ k hlook] at hdec
      cases hpin : e.pinned k with
      | some o =>
        rw [hpin] at hdec
        exact hdec.symm
      | none =>
        rw [hpin] at hdec
        cases hold : t.lookup k.name with
        | some o =>
          rw [hold] at hdec
          exact hdec.symm
        | none =>
          rw [hold] at hdec
          intro g' hg' r' d' hd' hname'
          have hmem' := hchoice hroom hg' hd'
          obtain ⟨k₂, hk₂, hn₂, hdec₂⟩ := hall _ hmem'
          obtain rfl := findMapDecl_eq hk hk₂ (hname'.symm.trans hn₂.symm)
          rw [decide_cases e t _ k hlook, hpin, hold] at hdec₂
          exact hdec₂.symm.trans hdec
  · rintro ⟨hout, hroom, hfound, hagree⟩
    refine ⟨hout, hroom, fun c hc => ?_⟩
    obtain ⟨g, hg, hcg⟩ := List.mem_flatMap.mp hc
    have hr : c.1 ∈ g.members := by
      rw [← members_of_choices (P := P) (hroom g hg)]
      exact List.mem_map_of_mem hcg
    obtain ⟨k, hk, hname⟩ := hfound g hg c.1 hr
    refine ⟨k, hk, hname, ?_⟩
    obtain ⟨c₀, hc₀, hname₀, hlook⟩ := lookup_choices hc
    rw [← hname] at hlook
    rw [decide_cases e t _ k hlook]
    have hd := hagree g hg c.1 c.2 ((assumes_iff (hroom g hg) _ _).mpr hcg) k hk
    cases hpin : e.pinned k with
    | some o =>
      rw [hpin] at hd
      exact hd.symm
    | none =>
      rw [hpin] at hd
      cases hold : t.lookup k.name with
      | some o =>
        rw [hold] at hd
        exact hd.symm
      | none =>
        rw [hold] at hd
        obtain ⟨g₀, hg₀, hcg₀⟩ := List.mem_flatMap.mp hc₀
        exact hd g₀ hg₀ c₀.1 c₀.2 ((assumes_iff (hroom g₀ hg₀) _ _).mpr hcg₀) (hname₀.trans hname.symm)

end Walk

/-- One map over one pool. -/
def oneMap : Program where
  kernels := [{ name := "step", paramCount := 1, flopsPerElem := 1 }]
  gpuPool := fun _ => some "P"
  capacity := fun _ => 1000
  footprint := fun _ => ["P"]
  profile := sampleMachine
  costs := sampleMachine.costModel

/-- Alone in a loop the map gets no decision. -/
theorem not_placements_consistent :
    jointWalk oneMap false [] [] (.loop (.run "step")) = [] ∧
      ¬ Consistent oneMap ⟨none, none, fun _ => none⟩ [] (.loop (.run "step")) := by
  have hwalk : jointWalk oneMap false [] [] (.loop (.run "step")) = [] := by
    rw [jointWalk, jointWalk]
  refine ⟨hwalk, ?_⟩
  rintro ⟨entries, hentries, hall⟩
  rw [hwalk] at hentries
  obtain rfl : entries = [] := hentries.symm
  have hlen := hall.length_eq
  have hruns : (runs oneMap (.loop (.run "step"))).length = 1 := by decide +kernel
  rw [hruns] at hlen
  cases hlen

end Arche.Codegen.PlacementWalk
