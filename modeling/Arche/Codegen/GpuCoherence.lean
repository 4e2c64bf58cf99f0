import Arche.Lib.Simulation
import Arche.Semantic.Schedule

/-!
# Host and device copies of the pools

Under `--gpu` the columns of a pool may live in a device buffer that outlasts a
dispatch. `cg_coherence_pass` goes over the folded schedule once, keeps for each pool
whether the device (`dirty_gpu`) or the host (`dirty_host`) may have the newer copy,
and puts a download before a host step and an upload before a GPU step that read such
a pool. At run time a download looks at the dirty bit of the buffer, an upload does
not look at anything.

* A column is the unit the runtime copies; the pass sees pools. The footprint of a
  kernel comes with the kernel, together with what the kernel does.
* A schedule is run as `emit_sched` emits it: a loop runs its body at least once. A
  run that never ends is covered by its prefixes.
* `newer` is no data of the program. It says which copy was written last.

This module has the pass and the two machines: one with both copies, and one with all
kernels on the host.
-/

namespace Arche.Codegen.GpuCoherence

open Arche.Lib
open Arche.Semantic.Schedule (Tree)

/-! ## Kernels -/

/-- What a kernel does with a pool, an entry of `CgFootprint`. -/
structure Access where
  pool : String
  isWrite : Bool
  isRead : Bool
deriving DecidableEq, Repr

/-- A kernel of the schedule, placed on the GPU or not. Its footprint covers what it reads and writes.
`cols` are the columns a dispatch binds; a GPU kernel touches no others, and its footprint counts
the pool of its selector as read. -/
structure Kernel {κ : Type} (pool : κ → String) (V : Type) where
  gpu : Bool
  footprint : List Access
  cols : List κ
  reads : List κ
  writes : List κ
  body : (κ → V) → κ → V
  uses : ∀ m m', (∀ k ∈ reads, m k = m' k) → ∀ k ∈ writes, body m k = body m' k
  reads_covered : ∀ k ∈ reads, ∃ a ∈ footprint, a.pool = pool k ∧ a.isRead = true
  writes_covered : ∀ k ∈ writes, ∃ a ∈ footprint, a.pool = pool k ∧ a.isWrite = true
  bound : gpu = true → ∀ k, k ∈ reads ∨ k ∈ writes → k ∈ cols
  selected : gpu = true → ∀ k ∈ cols, ∃ a ∈ footprint, a.pool = pool k
  all_read : gpu = true → ∀ a ∈ footprint, a.isRead = true

/-- The kernels by name, and the pools with an `@resident` of their own. A footprint has canonical
names. -/
structure Program (κ V : Type) where
  pool : κ → String
  kernels : List (String × Kernel pool V)
  canonicalArchName : String → String
  annotated : String → Bool
  canonical : ∀ d ∈ kernels, ∀ a ∈ d.2.footprint, canonicalArchName a.pool = a.pool
  idempotent : ∀ name, canonicalArchName (canonicalArchName name) = canonicalArchName name

variable {κ V : Type}

/-- What stands behind the last dot of a name. -/
def nameTail (name : String) : String :=
  String.ofList (name.toList.reverse.takeWhile (· != '.')).reverse

/-- `cg_find_scheduled_decl`. -/
def Program.findScheduledDecl (P : Program κ V) (name : String) : Option (Kernel P.pool V) :=
  (P.kernels.find? fun d => d.1 == name || d.1 == nameTail name).map Prod.snd

/-! ## The pass -/

/-- What `CgCoh` has for a pool. -/
structure Flags where
  dirtyGpu : Bool := false
  dirtyHost : Bool := false
  gpuSeen : Bool := false
  gpuRun : Nat := 0
deriving DecidableEq, Repr

/-- `CgCoh`, with the pools the pass has made resident. -/
structure Coh where
  entries : List (String × Flags)
  resident : List String
deriving DecidableEq, Repr

namespace Coh

def empty : Coh := ⟨[], []⟩

def get (c : Coh) (p : String) : Flags := (c.entries.lookup p).getD {}

/-- An update of the entry `cg_coh_idx` finds or makes. There is room for 128 pools. -/
def modify (c : Coh) (p : String) (f : Flags → Flags) : Coh :=
  if (c.entries.lookup p).isSome then
    { c with entries := c.entries.map fun e => (e.1, if e.1 = p then f e.2 else e.2) }
  else if c.entries.length < 128 then { c with entries := c.entries ++ [(p, f {})] }
  else c

/-- `cg_arch_set_resident`. -/
def setResident (c : Coh) (p : String) : Coh := { c with resident := p :: c.resident }

def resetRuns (c : Coh) : Coh :=
  { c with entries := c.entries.map fun e => (e.1, { e.2 with gpuRun := 0 }) }

end Coh

/-- The schedule after the pass. -/
inductive Out
  | run (sym : String)
  | halt
  | gpuSync (sym : Option String)
  | gpuUpload (sym : String)
  | seq (children : List Out)
  | par (children : List Out)
  | loop (child : Out)
  | whenT (sym : Option String) (child : Out)

/-- The transfers the reads of a step ask for. -/
def transfers (gpu : Bool) : List Access → Coh → List Out × Coh
  | [], c => ([], c)
  | a :: as, c =>
    if a.isRead = false then transfers gpu as c
    else
      let c := c.modify a.pool id
      let e := c.get a.pool
      if !gpu && e.dirtyGpu then
        let r := transfers gpu as (c.modify a.pool fun e => { e with dirtyGpu := false, gpuRun := 0 })
        (.gpuSync (some a.pool) :: r.1, r.2)
      else if gpu && e.dirtyHost && e.gpuSeen then
        let r := transfers gpu as (c.modify a.pool fun e => { e with dirtyHost := false })
        (.gpuUpload a.pool :: r.1, r.2)
      else transfers gpu as c

/-- What a step leaves behind in a pool. -/
def Flags.after (gpu : Bool) (a : Access) (e : Flags) : Flags :=
  if gpu then
    { dirtyGpu := e.dirtyGpu || a.isWrite, dirtyHost := e.dirtyHost && !a.isWrite, gpuSeen := true,
      gpuRun := e.gpuRun + 1 }
  else
    { e with dirtyGpu := e.dirtyGpu && !a.isWrite, dirtyHost := e.dirtyHost || a.isWrite, gpuRun := 0 }

def applyAccess (gpu : Bool) (c : Coh) (a : Access) : Coh :=
  let c := c.modify a.pool (Flags.after gpu a)
  -- two GPU steps in a row
  if gpu && 2 ≤ (c.get a.pool).gpuRun then c.setResident a.pool else c

/-- `CgLoopSets`. -/
structure LoopSets where
  gwrite : List String := []
  gtouch : List String := []
  hwrite : List String := []

def loopsetAdd (l : List String) (p : String) : List String :=
  if p ∈ l then l else if l.length < 128 then l ++ [p] else l

def LoopSets.add (gpu : Bool) (ls : LoopSets) (a : Access) : LoopSets :=
  if gpu then
    { ls with
      gwrite := if a.isWrite then loopsetAdd ls.gwrite a.pool else ls.gwrite
      gtouch := if a.isRead || a.isWrite then loopsetAdd ls.gtouch a.pool else ls.gtouch }
  else { ls with hwrite := if a.isWrite then loopsetAdd ls.hwrite a.pool else ls.hwrite }

/-- The written pools of a body, marked on entry to it and after it. -/
def Coh.seed (c : Coh) (ls : LoopSets) : Coh :=
  ls.hwrite.foldl (fun c p => c.modify p fun e => { e with dirtyHost := true })
    (ls.gwrite.foldl (fun c p => c.modify p fun e => { e with dirtyGpu := true }) c)

/-- The pools the GPU touches in a loop stay on the device. -/
def Coh.seedSeen (c : Coh) (ls : LoopSets) : Coh :=
  ls.gtouch.foldl (fun c p => (c.modify p fun e => { e with gpuSeen := true }).setResident p) c

/-- The flush before a `when`. -/
def Coh.flush (c : Coh) : List Out × Coh :=
  ((c.entries.filter fun e => e.2.dirtyGpu).map fun e => .gpuSync (some e.1),
    { c with entries := c.entries.map fun e => (e.1, { e.2 with dirtyGpu := false }) })

/-- `cg_coh_process_slot` puts several nodes into a sequence. -/
def pack : List Out → Out
  | [t] => t
  | ts => .seq ts

section Pass

variable (P : Program κ V)

mutual

/-- The kernels of a schedule, in the order of the walk. -/
def kernels : Tree → List (Kernel P.pool V)
  | .run sym => (P.findScheduledDecl sym).toList
  | .halt | .gpuSync _ => []
  | .seq ts | .par ts => kernelsAll ts
  | .loop t | .whenT _ t => kernels t

def kernelsAll : List Tree → List (Kernel P.pool V)
  | [] => []
  | t :: ts => kernels t ++ kernelsAll ts

end

/-- `cg_coh_collect_loop_sets`. -/
def collectLoopSets (t : Tree) : LoopSets :=
  (kernels P t).foldl (fun ls k => k.footprint.foldl (LoopSets.add k.gpu) ls) {}

mutual

/-- `cg_coh_process_child`. -/
def processChild : Tree → Coh → List Out × Coh
  | .run sym, c =>
    match P.findScheduledDecl sym with
    | none => ([.run sym], c)
    | some k =>
      let r := transfers k.gpu k.footprint c
      (r.1 ++ [.run sym], k.footprint.foldl (applyAccess k.gpu) r.2)
  | .halt, c => ([.halt], c)
  | .gpuSync none, c => ([.gpuSync none], c)
  | .gpuSync (some sym), c =>
    ([.gpuSync (some sym)],
      c.modify (P.canonicalArchName sym) fun e => { e with dirtyGpu := false, gpuRun := 0 })
  | .seq ts, c => let r := processSeq ts c; ([.seq r.1], r.2)
  | .par ts, c => let r := processSeq ts c; ([.par r.1], r.2)
  | .loop t, c =>
    let ls := collectLoopSets P t
    let r := processChild t ((c.seed ls).seedSeen ls).resetRuns
    ([.loop (pack r.1)], r.2.seed ls)
  | .whenT sym t, c =>
    let ls := collectLoopSets P t
    let f := c.flush
    let r := processChild t (f.2.seed ls).resetRuns
    (f.1 ++ [.whenT sym (pack r.1)], r.2.seed ls)

/-- `cg_coh_process_seq`. -/
def processSeq : List Tree → Coh → List Out × Coh
  | [], c => ([], c)
  | t :: ts, c =>
    let r := processChild t c
    let r' := processSeq ts r.2
    (r.1 ++ r'.1, r'.2)

end

/-- `cg_coherence_pass`. -/
def coherencePass (t : Tree) : Out := pack (processChild P t .empty).1

/-- `cg_arch_is_resident` once the pass is over. -/
def isResident (t : Tree) (p : String) : Bool :=
  P.annotated p || (processChild P t .empty).2.resident.contains p

/-! ## The machine with two copies -/

/-- The copy of a column that was written last. -/
inductive Newer
  | same
  | host
  | device
deriving DecidableEq, Repr

/-- `dev` is the resident buffer of a column, `dirty` its `gpu_dirty`. -/
structure State (κ V : Type) where
  host : κ → V
  dev : κ → Option V
  dirty : κ → Bool
  newer : κ → Newer

def State.start (m : κ → V) : State κ V := ⟨m, fun _ => none, fun _ => false, fun _ => .host⟩

/-- `arche_gpu_sync` copies the column. -/
def State.downloads (s : State κ V) (p : String) (k : κ) : Bool :=
  P.pool k == p && (s.dev k).isSome && s.dirty k

def State.sync (s : State κ V) (p : String) : State κ V where
  host k := if s.downloads P p k then (s.dev k).getD (s.host k) else s.host k
  dev := s.dev
  dirty k := if s.downloads P p k then false else s.dirty k
  newer k := if s.downloads P p k then .same else s.newer k

/-- `arche_gpu_upload` copies the column. -/
def State.uploads (s : State κ V) (p : String) (k : κ) : Bool := P.pool k == p && (s.dev k).isSome

def State.upload (s : State κ V) (p : String) : State κ V where
  host := s.host
  dev k := if s.uploads P p k then some (s.host k) else s.dev k
  dirty k := if s.uploads P p k then false else s.dirty k
  newer k := if s.uploads P p k then .same else s.newer k

variable [DecidableEq κ]

/-- The columns after a kernel that saw `m`. -/
def Kernel.result (k : Kernel P.pool V) (m : κ → V) (c : κ) : V :=
  if c ∈ k.writes then k.body m c else m c

def State.runHost (s : State κ V) (k : Kernel P.pool V) : State κ V where
  host := k.result P s.host
  dev := s.dev
  dirty := s.dirty
  newer c := if c ∈ k.writes then .host else s.newer c

/-- What a dispatch finds in its buffers: a resident buffer is filled when it is made. -/
def State.onDevice (s : State κ V) (resident : String → Bool) (c : κ) : V :=
  if resident (P.pool c) then (s.dev c).getD (s.host c) else s.host c

/-- `arche_gpu_dispatch`. Every buffer of a resident column is marked dirty; the other columns are
copied back. -/
def State.dispatch (s : State κ V) (resident : String → Bool) (k : Kernel P.pool V) : State κ V where
  host c :=
    if c ∈ k.cols ∧ resident (P.pool c) = false then k.result P (s.onDevice P resident) c else s.host c
  dev c :=
    if c ∈ k.cols ∧ resident (P.pool c) = true then some (k.result P (s.onDevice P resident) c)
    else s.dev c
  dirty c := if c ∈ k.cols ∧ resident (P.pool c) = true then true else s.dirty c
  newer c :=
    if c ∈ k.cols ∧ resident (P.pool c) = true then
      if c ∈ k.writes then .device else if (s.dev c).isNone then .same else s.newer c
    else s.newer c

/-- What the kernel reads from. -/
def State.sees (s : State κ V) (resident : String → Bool) (k : Kernel P.pool V) : κ → V :=
  if k.gpu then s.onDevice P resident else s.host

def State.run (s : State κ V) (resident : String → Bool) (k : Kernel P.pool V) : State κ V :=
  if k.gpu then s.dispatch P resident k else s.runHost P k

/-! ## Runs -/

/-- A kernel with the values it read, or the outcome of a `when`. -/
inductive Obs (V : Type)
  | ran (sym : String) (inputs : List V)
  | tested (sym : Option String) (taken : Bool)

/-- A step with the state before it. A `when` comes with its body. -/
inductive Event (κ V : Type)
  | ran (sym : String) (s : State κ V)
  | synced (p : String) (s : State κ V)
  | uploaded (p : String) (s : State κ V)
  | tested (sym : Option String) (body : Out) (taken : Bool) (s : State κ V)

variable (resident : String → Bool)

/-- `emit_sched` on a node, from what it is on its children. -/
def emitRun (sym : String) : Path (State κ V) (Event κ V) :=
  match P.findScheduledDecl sym with
  | none => .skip
  | some k => .act fun s => (s.run P resident k, [.ran sym s])

def emitSync : Option String → Path (State κ V) (Event κ V)
  | none => .skip
  | some sym =>
    .act fun s => (s.sync P (P.canonicalArchName sym), [.synced (P.canonicalArchName sym) s])

def emitUpload (sym : String) : Path (State κ V) (Event κ V) :=
  .act fun s => (s.upload P (P.canonicalArchName sym), [.uploaded (P.canonicalArchName sym) s])

mutual

def Out.path : Out → Path (State κ V) (Event κ V)
  | .run sym => emitRun P resident sym
  | .halt => .leave .returned
  | .gpuSync sym => emitSync P sym
  | .gpuUpload sym => emitUpload P sym
  | .seq ts | .par ts => Out.pathAll ts
  | .loop t => .seq (Out.path t) (.Repeat (Out.path t))
  | .whenT sym t =>
    .choice (.seq (.emit (.tested sym t true)) (Out.path t)) (.emit (.tested sym t false))

def Out.pathAll : List Out → Path (State κ V) (Event κ V)
  | [] => .skip
  | t :: ts => .seq (Out.path t) (Out.pathAll ts)

end

mutual

/-- The schedule as it is written, with all kernels on the host. -/
def hostPath : Tree → Path (κ → V) (Obs V)
  | .run sym =>
    match P.findScheduledDecl sym with
    | none => .skip
    | some k => .act fun m => (k.result P m, [.ran sym (k.reads.map m)])
  | .halt => .leave .returned
  | .gpuSync _ => .skip
  | .seq ts | .par ts => hostPathAll ts
  | .loop t => .seq (hostPath t) (.Repeat (hostPath t))
  | .whenT sym t =>
    .choice (.seq (.emit fun _ => .tested sym true) (hostPath t)) (.emit fun _ => .tested sym false)

def hostPathAll : List Tree → Path (κ → V) (Obs V)
  | [] => .skip
  | t :: ts => .seq (hostPath t) (hostPathAll ts)

end

/-- What of a step is to be seen from outside. -/
def Event.keep : Event κ V → Option (Obs V)
  | .ran sym s => (P.findScheduledDecl sym).map fun k => .ran sym (k.reads.map (s.sees P resident k))
  | .synced _ _ | .uploaded _ _ => none
  | .tested sym _ taken _ => some (.tested sym taken)

/-- The schedule after the pass does what the schedule does with all kernels on the host. -/
def Transparent (t : Tree) : Prop :=
  ∀ m o s es, (coherencePass P t).path P (isResident P t) (State.start m) o s es →
    ∃ m', hostPath P t m o m' (es.filterMap (Event.keep P (isResident P t))) ∧ s.host = m'

end Pass

end Arche.Codegen.GpuCoherence
