import Arche.Lib.Chain
import Mathlib.Algebra.Order.Ring.Rat
import Mathlib.Algebra.BigOperators.Group.List.Basic
import Mathlib.Data.List.Induction
import Mathlib.Tactic.Linarith
import Mathlib.Tactic.Ring

/-!
# Joint placement of a cluster

`cg_joint_flush` places the maps of a cluster by a table over its prefixes: the cheapest
cost with the pool on the host and on the device after each map, and where it came from. It
records the devices read back from the table.

* Costs are rationals. `CostModel` has what the code computes from the machine profile, so
  the results are for all costs.
* A device is `true` for the GPU.

1. `jointAssign_eq`: the loops of the code compute `Lib.Chain.backtrack`.
2. `joint_flush_optimal`: no assignment costs less than the recorded one.
-/

namespace Arche.Codegen.JointPlacement

open Arche.Lib

/-! ## The code -/

/-- What the pass looks at in a `HirKernelDecl`. `flopsPerElem` is `cg_kernel_flops_per_elem`. -/
structure Kernel where
  name : String
  isMap : Bool := true
  eff : Bool := false
  isGpu : Bool := false
  paramCount : Nat
  flopsPerElem : ℚ
deriving DecidableEq

/-- `CgCluster`. -/
structure Cluster where
  pool : Option String
  rows : Int
  maps : List Kernel
  maxNcol : Nat

def Cluster.empty : Cluster := ⟨none, 0, [], 0⟩

/-- `MachineProfile`. -/
structure MachineProfile where
  gpuPresent : Bool
  gpuGflops : ℚ
  cpuGflops : ℚ
  gpuXferUs : ℚ
  pcieUpGbps : ℚ
  pcieDownGbps : ℚ
  gpuLaunchUs : ℚ

/-- `INF`. -/
def inf : ℚ := 10 ^ 30

/-- The one-way transfer of a cluster, and what a map costs on each side. -/
structure CostModel where
  xf : Cluster → ℚ
  cpu : Cluster → Kernel → ℚ
  gpu : Cluster → Kernel → ℚ

def MachineProfile.costModel (p : MachineProfile) : CostModel where
  xf := fun cl =>
    let bytes : ℚ := cl.maxNcol * 4 * cl.rows
    p.gpuXferUs * (1 / 2000000) + if p.pcieUpGbps > 0 then bytes / (p.pcieUpGbps * 10 ^ 9) else inf
  cpu := fun cl k => k.flopsPerElem * cl.rows / (p.cpuGflops * 10 ^ 9)
  gpu := fun cl k =>
    p.gpuLaunchUs * (1 / 1000000) + k.flopsPerElem * cl.rows / (p.gpuGflops * 10 ^ 9)

/-- The entries of `joint_names` and `joint_gpu`. -/
abbrev Table := List (String × Bool)

/-- `cg_joint_record`. -/
def jointRecord (t : Table) (k : Kernel) (gpu : Bool) : Table := t ++ [(k.name, gpu)]

/-- `dpC`, `dpG`, and the arrays `fromC` and `fromG` so far. -/
structure Dp where
  dpC : ℚ
  dpG : ℚ
  fromC : List Bool
  fromG : List Bool

/-- One turn of the loop over the maps. -/
def dpStep (xf : ℚ) (s : Dp) (cost : ℚ × ℚ) : Dp :=
  let stayC := s.dpC
  let hopC := s.dpG + xf
  let stayG := s.dpG
  let hopG := s.dpC + xf
  { dpC := cost.1 + if stayC ≤ hopC then stayC else hopC
    dpG := cost.2 + if stayG ≤ hopG then stayG else hopG
    fromC := s.fromC ++ [if stayC ≤ hopC then false else true]
    fromG := s.fromG ++ [if stayG ≤ hopG then true else false] }

def dpInit (entryGpu : Bool) : Dp :=
  ⟨if entryGpu then inf else 0, if entryGpu then 0 else inf, [], []⟩

/-- The loop that fills `gpu_of` from the back. -/
def gpuOf (s : Dp) : Nat → Bool → List Bool → List Bool
  | 0, _, acc => acc
  | i + 1, dev, acc =>
    gpuOf s i ((if dev then s.fromG[i]? else s.fromC[i]?).getD false) (dev :: acc)

/-- The decisions for maps with costs on the host and on the GPU. -/
def jointAssign (xf : ℚ) (resident : Bool) (costs : List (ℚ × ℚ)) : List Bool :=
  let s := costs.foldl (dpStep xf) (dpInit resident)
  let endC := s.dpC + if resident then xf else 0
  let endG := s.dpG + if resident then 0 else xf
  gpuOf s costs.length (decide (endG < endC)) []

/-- Whether the pool stays on the GPU at the edges of the cluster. -/
def isResident (inLoop : Bool) (hostPools : List String) (pool : String) : Bool :=
  inLoop && !hostPools.contains pool

def MachineProfile.decides (p : MachineProfile) (cl : Cluster) : Bool :=
  p.gpuPresent && decide (p.gpuGflops > 0) && decide (p.cpuGflops > 0) && decide (cl.rows > 0)

def Cluster.costs (m : CostModel) (cl : Cluster) : List (ℚ × ℚ) :=
  cl.maps.map fun k => (m.cpu cl k, m.gpu cl k)

/-- The devices `cg_joint_flush` decides on for the maps of a cluster. -/
def Cluster.decisions (p : MachineProfile) (m : CostModel) (inLoop : Bool) (hostPools : List String)
    (cl : Cluster) (pool : String) : List Bool :=
  if p.decides cl then jointAssign (m.xf cl) (isResident inLoop hostPools pool) (cl.costs m)
  else cl.maps.map fun _ => false

/-- `cg_joint_flush`, with the cluster left empty. -/
def jointFlush (p : MachineProfile) (m : CostModel) (t : Table) (cl : Cluster) (inLoop : Bool)
    (hostPools : List String) : Table × Cluster :=
  match cl.pool with
  | none => (t, .empty)
  | some pool =>
    ((cl.maps.zip (cl.decisions p m inLoop hostPools pool)).foldl
      (fun t d => jointRecord t d.1 d.2) t, .empty)

/-! ## What an assignment costs -/

/-- How often the device changes. -/
def changes : List Bool → Nat
  | x :: y :: l => (if x = y then 0 else 1) + changes (y :: l)
  | _ => 0

/-- Each map on its device, and `xf` for every change on the way from the entry to the exit. -/
def totalCost (xf : ℚ) (entry exit : Bool) (costs : List (ℚ × ℚ)) (devs : List Bool) : ℚ :=
  (List.zipWith (fun c g => if g then c.2 else c.1) costs devs).sum +
    changes (entry :: (devs ++ [exit])) * xf

/-- The steps of the chain, the last map first. -/
def chain (costs : List (ℚ × ℚ)) : List (Chain.Step ℚ) :=
  costs.reverse.map fun c g => if g then c.2 else c.1

theorem chain_snoc (costs : List (ℚ × ℚ)) (c : ℚ × ℚ) :
    chain (costs ++ [c]) = (fun g => if g then c.2 else c.1) :: chain costs := by
  simp [chain]

theorem length_chain (costs : List (ℚ × ℚ)) : (chain costs).length = costs.length := by
  simp [chain]

theorem changes_snoc (l : List Bool) (x d : Bool) :
    changes (l ++ [x, d]) = changes (l ++ [x]) + if x = d then 0 else 1 := by
  induction l with
  | nil => simp [changes]
  | cons y l ih =>
    cases l with
    | nil => simp [changes]
    | cons z l =>
      simp only [List.cons_append, changes] at ih ⊢
      rw [ih, Nat.add_assoc]

theorem hop_eq (xf : ℚ) (a b : Bool) : Chain.hop xf a b = (if a = b then 0 else 1 : Nat) * xf := by
  unfold Chain.hop
  split <;> simp

theorem totalCost_eq (xf : ℚ) (entry exit : Bool) {costs : List (ℚ × ℚ)} {devs : List Bool}
    (hlen : devs.length = costs.length) :
    totalCost xf entry exit costs devs =
      Chain.reach xf (Chain.hop xf entry) (chain costs) devs.reverse exit := by
  induction costs using List.reverseRecOn generalizing devs exit with
  | nil =>
    obtain rfl := List.eq_nil_of_length_eq_zero hlen
    simp [totalCost, chain, Chain.reach, changes, hop_eq]
  | append_singleton costs c ih =>
    rcases List.eq_nil_or_concat devs with rfl | ⟨ds, x, rfl⟩
    · simp at hlen
    · rw [List.concat_eq_append] at hlen ⊢
      have hds : ds.length = costs.length := by simpa using hlen
      rw [List.reverse_append, List.reverse_singleton, List.singleton_append, chain_snoc,
        Chain.reach, ← ih x hds, hop_eq, totalCost, totalCost, List.zipWith_append hds.symm,
        List.sum_append, List.append_assoc]
      have := changes_snoc (entry :: ds) x exit
      simp only [List.cons_append, List.nil_append] at this ⊢
      rw [this]
      simp only [List.zipWith_cons_cons, List.zipWith_nil_left, List.sum_cons, List.sum_nil]
      push_cast
      ring

/-! ## The loops fill the table -/

/-- The cost of being on a device before the first map. -/
def initCost (resident : Bool) (d : Bool) : ℚ := if d = resident then 0 else inf

section

variable {xf : ℚ} {resident : Bool}

theorem arrive_init (h : |xf| < inf) (d : Bool) :
    Chain.arrive xf (initCost resident) d = Chain.hop xf resident d := by
  have habs := abs_lt.mp h
  unfold Chain.arrive initCost Chain.hop
  cases d <;> cases resident <;> simp <;> intros <;> linarith

variable (xf resident)

theorem dp_values (costs : List (ℚ × ℚ)) :
    (costs.foldl (dpStep xf) (dpInit resident)).dpC =
        Chain.best xf (initCost resident) (chain costs) false ∧
      (costs.foldl (dpStep xf) (dpInit resident)).dpG =
        Chain.best xf (initCost resident) (chain costs) true := by
  induction costs using List.reverseRecOn with
  | nil => cases resident <;> exact ⟨rfl, rfl⟩
  | append_singleton costs c ih =>
    rw [List.foldl_append, List.foldl_cons, List.foldl_nil, chain_snoc]
    simp only [dpStep, Chain.best, Chain.arrive, ih.1, ih.2, Bool.not_false, Bool.not_true, if_true,
      Bool.false_eq_true, if_false, and_self]

theorem length_from (costs : List (ℚ × ℚ)) (s : Dp) :
    (costs.foldl (dpStep xf) s).fromC.length = s.fromC.length + costs.length ∧
      (costs.foldl (dpStep xf) s).fromG.length = s.fromG.length + costs.length := by
  induction costs generalizing s with
  | nil => exact ⟨rfl, rfl⟩
  | cons c costs ih =>
    rw [List.foldl_cons, (ih _).1, (ih _).2]
    simp only [dpStep, List.length_append, List.length_cons, List.length_nil]
    omega

/-- The loop looks at the first entries of the arrays only. -/
theorem gpuOf_congr {s t : Dp} {n : Nat} (hC : ∀ i < n, s.fromC[i]? = t.fromC[i]?)
    (hG : ∀ i < n, s.fromG[i]? = t.fromG[i]?) (dev : Bool) (acc : List Bool) :
    gpuOf s n dev acc = gpuOf t n dev acc := by
  induction n generalizing dev acc with
  | zero => rfl
  | succ n ih =>
    rw [gpuOf, gpuOf, hC n (Nat.lt_succ_self n), hG n (Nat.lt_succ_self n)]
    exact ih (fun i hi => hC i (Nat.lt_succ_of_lt hi)) (fun i hi => hG i (Nat.lt_succ_of_lt hi)) _ _

theorem gpuOf_eq (costs : List (ℚ × ℚ)) (dev : Bool) (acc : List Bool) :
    gpuOf (costs.foldl (dpStep xf) (dpInit resident)) costs.length dev acc =
      (Chain.backtrack xf (initCost resident) (chain costs) dev).reverse ++ acc := by
  induction costs using List.reverseRecOn generalizing dev acc with
  | nil => rfl
  | append_singleton costs c ih =>
    obtain ⟨hC, hG⟩ := dp_values xf resident costs
    obtain ⟨hlenC, hlenG⟩ := length_from xf costs (dpInit resident)
    rw [List.foldl_append, List.foldl_cons, List.foldl_nil, List.length_append,
      List.length_singleton, gpuOf, chain_snoc, Chain.backtrack, List.reverse_cons,
      List.append_assoc, List.singleton_append, ← ih]
    generalize hs : costs.foldl (dpStep xf) (dpInit resident) = s at hC hG hlenC hlenG ih ⊢
    have hzero : (dpInit resident).fromC.length = 0 ∧ (dpInit resident).fromG.length = 0 := ⟨rfl, rfl⟩
    have hn : s.fromC.length = costs.length ∧ s.fromG.length = costs.length := by omega
    -- the entries written in this turn are the devices to come from
    have hlast : ((if dev then (dpStep xf s c).fromG[costs.length]?
        else (dpStep xf s c).fromC[costs.length]?).getD false) =
        Chain.source xf (Chain.best xf (initCost resident) (chain costs)) dev := by
      simp only [dpStep, Chain.source, ← hn.1, List.getElem?_concat_length]
      rw [hn.1, ← hn.2, List.getElem?_concat_length, hC, hG]
      cases dev <;> simp
    rw [hlast]
    refine gpuOf_congr (fun i hi => ?_) (fun i hi => ?_) _ _
    · exact List.getElem?_append_left (by omega)
    · exact List.getElem?_append_left (by omega)

theorem jointAssign_eq (costs : List (ℚ × ℚ)) :
    jointAssign xf resident costs =
      (Chain.backtrack xf (initCost resident) (chain costs)
        (decide (Chain.best xf (initCost resident) (chain costs) true + Chain.hop xf true resident <
          Chain.best xf (initCost resident) (chain costs) false +
            Chain.hop xf false resident))).reverse := by
  obtain ⟨hC, hG⟩ := dp_values xf resident costs
  rw [jointAssign, gpuOf_eq, List.append_nil, hC, hG]
  cases resident <;> rfl

theorem length_jointAssign (costs : List (ℚ × ℚ)) :
    (jointAssign xf resident costs).length = costs.length := by
  rw [jointAssign_eq, List.length_reverse, Chain.length_backtrack, length_chain]

/-- Among the cheapest assignments the decisions are those that, from the last map on, change the
device as late as they can, with the host as the last device in a tie. -/
theorem jointAssign_wins {start : Bool → ℚ}
    (hstart : ∀ d, Chain.arrive xf (initCost resident) d = start d) {costs : List (ℚ × ℚ)}
    {devs : List Bool} (hlen : devs.length = costs.length) :
    Chain.Wins xf start (chain costs) resident false (jointAssign xf resident costs).reverse
      devs.reverse := by
  rw [jointAssign_eq, List.reverse_reverse]
  exact Chain.wins_end hstart (by rw [List.length_reverse, hlen, length_chain])

theorem jointAssign_le (hxf : |xf| < inf) {costs : List (ℚ × ℚ)} {devs : List Bool}
    (hlen : devs.length = costs.length) :
    totalCost xf resident resident costs (jointAssign xf resident costs) ≤
      totalCost xf resident resident costs devs := by
  rw [totalCost_eq xf _ _ hlen, totalCost_eq xf _ _ (length_jointAssign xf resident costs)]
  exact (jointAssign_wins xf resident (arrive_init hxf) hlen).elim le_of_lt fun h => le_of_eq h.1

end

/-! ## What is recorded -/

theorem foldl_jointRecord (t : Table) (ds : List (Kernel × Bool)) :
    ds.foldl (fun t d => jointRecord t d.1 d.2) t = t ++ ds.map fun d => (d.1.name, d.2) := by
  induction ds generalizing t with
  | nil => exact (List.append_nil t).symm
  | cons d ds ih => rw [List.foldl_cons, ih, jointRecord, List.append_assoc, List.map_cons]; rfl

theorem jointFlush_eq (p : MachineProfile) (m : CostModel) (t : Table) {cl : Cluster} {pool : String}
    (hpool : cl.pool = some pool) (inLoop : Bool) (hostPools : List String) :
    (jointFlush p m t cl inLoop hostPools).1 =
      t ++ (cl.maps.zip (cl.decisions p m inLoop hostPools pool)).map fun d => (d.1.name, d.2) := by
  rw [jointFlush, hpool]
  exact foldl_jointRecord t _

theorem length_decisions (p : MachineProfile) (m : CostModel) (inLoop : Bool)
    (hostPools : List String) (cl : Cluster) (pool : String) :
    (cl.decisions p m inLoop hostPools pool).length = cl.maps.length := by
  unfold Cluster.decisions
  split
  · rw [length_jointAssign, Cluster.costs, List.length_map]
  · rw [List.length_map]

/-- With a GPU, a flush records one device for every map of the cluster, and no assignment of devices
costs less. -/
theorem joint_flush_optimal (p : MachineProfile) (m : CostModel) (t : Table) {cl : Cluster}
    {pool : String} (hpool : cl.pool = some pool) (hgpu : p.decides cl = true)
    (inLoop : Bool) (hostPools : List String) (hxf : |m.xf cl| < inf) :
    ∃ devs : List Bool, devs.length = cl.maps.length ∧
      (jointFlush p m t cl inLoop hostPools).1 =
        t ++ (cl.maps.zip devs).map (fun d => (d.1.name, d.2)) ∧
      ∀ others : List Bool, others.length = cl.maps.length →
        totalCost (m.xf cl) (isResident inLoop hostPools pool) (isResident inLoop hostPools pool)
            (cl.costs m) devs ≤
          totalCost (m.xf cl) (isResident inLoop hostPools pool) (isResident inLoop hostPools pool)
            (cl.costs m) others := by
  refine ⟨_, length_decisions p m inLoop hostPools cl pool, jointFlush_eq p m t hpool inLoop hostPools,
    fun others hlen => ?_⟩
  have hcosts : others.length = (cl.costs m).length := by rw [hlen, Cluster.costs, List.length_map]
  rw [Cluster.decisions, if_pos hgpu]
  exact jointAssign_le _ _ hxf hcosts

/-- A machine whose GPU is ten times faster. -/
def sampleMachine : MachineProfile := ⟨true, 1000, 100, 100, 10, 10, 10⟩

/-- A light map and a heavy one, on a pool of a million rows. -/
def sampleCluster : Cluster := ⟨some "P", 1000000, [{ name := "light", paramCount := 1, flopsPerElem := 1 },
  { name := "heavy", paramCount := 1, flopsPerElem := 1000 }], 1⟩

theorem joint_flush_optimal_sample :
    ∃ devs : List Bool, devs.length = 2 ∧
      (jointFlush sampleMachine sampleMachine.costModel [] sampleCluster false []).1 =
        (sampleCluster.maps.zip devs).map (fun d => (d.1.name, d.2)) ∧
      ∀ others : List Bool, others.length = 2 →
        totalCost (sampleMachine.costModel.xf sampleCluster) false false
            (sampleCluster.costs sampleMachine.costModel) devs ≤
          totalCost (sampleMachine.costModel.xf sampleCluster) false false
            (sampleCluster.costs sampleMachine.costModel) others :=
  joint_flush_optimal sampleMachine sampleMachine.costModel [] (show sampleCluster.pool = some "P" from rfl)
    (by decide +kernel) false [] (by decide +kernel)

end Arche.Codegen.JointPlacement
