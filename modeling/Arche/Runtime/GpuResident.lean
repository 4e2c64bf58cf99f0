import Arche.Lib.Run
import Mathlib.Data.List.Forall2
import Mathlib.Logic.Function.Basic
import Mathlib.Tactic.Common

/-!
# Resident device buffers

gpu_runtime.c keeps the columns of `@resident` pools in device buffers, in a table by host
pointer. A dispatch takes the buffer of the table, makes a new entry, or copies to the
device and back; `arche_gpu_sync` and `arche_gpu_upload` move what is in the table.

* Columns are named by their host pointers and do not overlap. Bytes are by their place in
  the column.
* The Vulkan calls succeed and copy the bytes, and a shader is a function of the bytes bound
  to it. So a dispatch binds no column twice.
* A device that is not there, a kernel without a shader, or a full pipeline cache make the
  dispatch return before it does anything.
* `Machine` has beside the state what the columns hold: the output of the last dispatch or the
  host value uploaded last.
-/

namespace Arche.Runtime.GpuResident

open Arche.Lib

/-- The bytes of a column or of a buffer. -/
abbrev Column := Nat → UInt8

/-- The first `n` bytes are new. -/
def overlay (n : Nat) (new old : Column) : Column := fun k => if k < n then new k else old k

theorem overlay_lt {n k : Nat} (new old : Column) (h : k < n) : overlay n new old k = new k := if_pos h

theorem overlay_ge {n k : Nat} (new old : Column) (h : n ≤ k) : overlay n new old k = old k :=
  if_neg (Nat.not_lt.mpr h)

/-- `ArcheGpuShader`: what it computes for a number of elements, by binding. -/
structure Shader where
  name : String
  ncol : Nat
  run : Nat → (Nat → Column) → Nat → Column

/-- The device, and `arche_gpu_lookup`. -/
structure Device where
  present : Bool
  lookup : String → Option Shader

/-- `ResidentBuf`. -/
structure ResidentBuf (κ : Type) where
  host : κ
  data : Column
  bytes : Nat
  gpuDirty : Bool

def ResidentBuf.write {κ : Type} (bytes : Nat) (data : Column) (r : ResidentBuf κ) : ResidentBuf κ :=
  { r with data := overlay bytes data r.data }

def ResidentBuf.mark {κ : Type} (dirty : Bool) (r : ResidentBuf κ) : ResidentBuf κ :=
  { r with gpuDirty := dirty }

/-- The pipeline cache, the table of buffers, and the host memory. -/
structure State (κ : Type) where
  pipes : List String
  resident : List (ResidentBuf κ)
  host : κ → Column

/-- The arguments of `arche_gpu_dispatch`. -/
structure Dispatch (κ : Type) where
  name : String
  cols : List κ
  elemSize : Nat
  count : Nat
  resident : Bool
  nodup : cols.Nodup

variable {κ : Type} [DecidableEq κ]

def maxCol : Nat := 16
def maxCache : Nat := 64
def maxResident : Nat := 256

def Dispatch.bytes (d : Dispatch κ) : Nat := d.elemSize * d.count

/-- `resident_find`: the place in the table. -/
def residentFind (rs : List (ResidentBuf κ)) (c : κ) : Option Nat := rs.findIdx? (·.host == c)

/-- `gpu_pipeline`: the cache with the pipeline of the shader. -/
def gpuPipeline (pipes : List String) (sh : Shader) : Option (List String) :=
  if sh.name ∈ pipes then some pipes
  else if maxCache ≤ pipes.length ∨ sh.ncol = 0 ∨ maxCol < sh.ncol then none
  else some (pipes ++ [sh.name])

/-- What a dispatch checks before it binds a column. -/
def prepare (dev : Device) (s : State κ) (d : Dispatch κ) : Option (Shader × List String) :=
  if d.cols.length = 0 ∨ maxCol < d.cols.length ∨ d.count = 0 then none
  else match dev.lookup d.name with
    | none => none
    | some sh =>
      if sh.ncol ≠ d.cols.length ∨ dev.present = false then none
      else (gpuPipeline s.pipes sh).map fun pipes => (sh, pipes)

/-- What a column is bound to: a buffer of the table, or one of the dispatch. -/
inductive Binding
  | cached (i : Nat)
  | staged (data : Column)

/-- One round of the loop that binds the columns. -/
def bindColumn (s : State κ) (d : Dispatch κ) (c : κ) : Binding × State κ :=
  let fresh : Binding × State κ :=
    (.cached s.resident.length,
      { s with resident := s.resident ++ [⟨c, s.host c, d.bytes, false⟩] })
  if d.resident = true ∧ s.resident.length < maxResident then
    match residentFind s.resident c with
    | some i =>
      if s.resident[i]?.any (·.bytes == d.bytes) then (.cached i, s) else fresh
    | none => fresh
  else (.staged (s.host c), s)

def bindAll (s : State κ) (d : Dispatch κ) : List κ → List Binding × State κ
  | [] => ([], s)
  | c :: cs =>
    let (b, s) := bindColumn s d c
    let (bs, s) := bindAll s d cs
    (b :: bs, s)

/-- The bytes a binding gives the shader. -/
def bufferData (s : State κ) : Binding → Column
  | .cached i => (s.resident[i]?.map (·.data)).getD fun _ => 0
  | .staged data => data

/-- The inputs of the shader: of each binding the bytes of the dispatch. -/
def inputs (s : State κ) (bytes : Nat) (bs : List Binding) (b : Nat) : Column :=
  overlay bytes ((bs[b]?.map (bufferData s)).getD fun _ => 0) fun _ => 0

/-- What the shader leaves in the buffer of a column, and the round of the loop behind it. -/
def finishColumn (s : State κ) (bytes : Nat) (out : Column) (c : κ) : Binding → State κ
  | .cached i =>
    let rs := s.resident.modify i (.write bytes out)
    match residentFind rs c with
    | some j => { s with resident := rs.modify j (.mark true) }
    | none => { s with resident := rs }
  | .staged _ => { s with host := Function.update s.host c (overlay bytes out (s.host c)) }

def finishAll (s : State κ) (bytes : Nat) (out : Nat → Column) : List (κ × Binding) → State κ
  | [] => s
  | (c, b) :: rest => finishAll (finishColumn s bytes (out 0) c b) bytes (fun b => out (b + 1)) rest

/-- A run of a shader. -/
structure Launch where
  inputs : Nat → Column
  outputs : Nat → Column

/-- `arche_gpu_dispatch`: the launch, if there is one, and the state behind it. -/
def dispatch (dev : Device) (s : State κ) (d : Dispatch κ) : Option Launch × State κ :=
  match prepare dev s d with
  | none => (none, s)
  | some (sh, pipes) =>
    let (bs, s) := bindAll { s with pipes := pipes } d d.cols
    let ins := inputs s d.bytes bs
    let out := sh.run d.count ins
    (some ⟨ins, out⟩, finishAll s d.bytes out (d.cols.zip bs))

/-- One round of `arche_gpu_sync`. -/
def syncColumn (s : State κ) (c : κ) : State κ :=
  match residentFind s.resident c with
  | none => s
  | some i =>
    match s.resident[i]? with
    | some r =>
      if r.gpuDirty then
        { s with
          host := Function.update s.host c (overlay r.bytes r.data (s.host c))
          resident := s.resident.modify i (.mark false) }
      else s
    | none => s

/-- `arche_gpu_sync`. -/
def sync (s : State κ) (cols : List κ) : State κ := cols.foldl syncColumn s

/-- One round of `arche_gpu_upload`. -/
def uploadColumn (s : State κ) (c : κ) : State κ :=
  match residentFind s.resident c with
  | none => s
  | some i =>
    { s with resident := s.resident.modify i fun r =>
      (r.write r.bytes (s.host c)).mark false }

/-- `arche_gpu_upload`. -/
def upload (s : State κ) (cols : List κ) : State κ := cols.foldl uploadColumn s

/-! ## Runs -/

inductive Op (κ : Type)
  | dispatch (d : Dispatch κ)
  | sync (cols : List κ)
  | upload (cols : List κ)
  /-- A host write, and the upload of the column. -/
  | hostWrite (c : κ) (v : Column)

/-- The state, and what the columns hold. -/
structure Machine (κ : Type) where
  state : State κ
  contents : κ → Column

/-- The outputs, in the columns they are bound to. -/
def written (m : κ → Column) (bytes : Nat) (out : Nat → Column) : List κ → κ → Column
  | [] => m
  | c :: cs =>
    written (Function.update m c (overlay bytes (out 0) (m c))) bytes (fun b => out (b + 1)) cs

/-- The columns hold the values of the host. -/
def uploaded (host m : κ → Column) (cols : List κ) : κ → Column := fun c =>
  if c ∈ cols then host c else m c

def Machine.next (dev : Device) (t : Machine κ) : Op κ → Machine κ
  | .dispatch d =>
    let (l, s) := dispatch dev t.state d
    ⟨s, l.elim t.contents fun l => written t.contents d.bytes l.outputs d.cols⟩
  | .sync cols => { t with state := sync t.state cols }
  | .upload cols => ⟨upload t.state cols, uploaded t.state.host t.contents cols⟩
  | .hostWrite c v =>
    ⟨upload { t.state with host := Function.update t.state.host c v } [c],
      Function.update t.contents c v⟩

def Step (dev : Device) (t : Machine κ) (op : Op κ) (t' : Machine κ) : Prop := t' = t.next dev op

/-- No buffer and no pipeline yet. -/
def start (host : κ → Column) : Machine κ := ⟨⟨[], [], host⟩, host⟩

/-- A dispatch computes on what its columns hold, and a sync makes the host array equal to it. -/
def Current (dev : Device) (t : Machine κ) : Op κ → Prop
  | .dispatch d => ∀ l, (dispatch dev t.state d).1 = some l →
    ∀ b c, d.cols[b]? = some c → ∀ k < d.bytes, l.inputs b k = t.contents c k
  | .sync cols => ∀ c ∈ cols, (sync t.state cols).host c = t.contents c
  | .upload _ | .hostWrite _ _ => True

/-- The columns with a buffer in the table: where the dispatch may take buffers from the table, it has
the size of the dispatch; else the table is full, and the device has nothing newer than the
host. `n` is the number of buffers at the column's turn. -/
def Fits (rs : List (ResidentBuf κ)) (d : Dispatch κ) (n : Nat) : List κ → Prop
  | [] => True
  | c :: cs =>
    match residentFind rs c with
    | none => Fits rs d (if d.resident = true ∧ n < maxResident then n + 1 else n) cs
    | some i =>
      (∀ r ∈ rs[i]?, if d.resident = true ∧ n < maxResident then r.bytes = d.bytes
        else maxResident ≤ n ∧ r.gpuDirty = false) ∧ Fits rs d n cs

/-- A dispatch that gets as far as the columns finds buffers that fit. -/
def Steady (dev : Device) (t : Machine κ) : Op κ → Prop
  | .dispatch d => (prepare dev t.state d).isSome →
    Fits t.state.resident d t.state.resident.length d.cols
  | .sync _ | .upload _ | .hostWrite _ _ => True

/-! ## The table -/

section

variable {rs new : List (ResidentBuf κ)} {c : κ} {i : Nat}

theorem residentFind_some (h : residentFind rs c = some i) :
    ∃ r, rs[i]? = some r ∧ r.host = c := by
  obtain ⟨hlt, hc, -⟩ := List.findIdx?_eq_some_iff_getElem.mp h
  exact ⟨rs[i], List.getElem?_eq_getElem hlt, eq_of_beq hc⟩

theorem residentFind_none : residentFind rs c = none ↔ ∀ r ∈ rs, r.host ≠ c := by
  simp [residentFind, List.findIdx?_eq_none_iff]

/-- Entries of other columns are not found. -/
theorem residentFind_append (h : ∀ r ∈ new, r.host ≠ c) :
    residentFind (rs ++ new) c = residentFind rs c := by
  have hnew : residentFind new c = none := residentFind_none.mpr h
  unfold residentFind at *
  rw [List.findIdx?_append, hnew]
  simp

/-- A change that keeps the host keeps what is found. -/
theorem residentFind_modify {f : ResidentBuf κ → ResidentBuf κ} (hf : ∀ r, (f r).host = r.host)
    (j : Nat) : residentFind (rs.modify j f) c = residentFind rs c := by
  have hfind (l : List (ResidentBuf κ)) :
      residentFind l c = (l.map (·.host)).findIdx? (· == c) := by
    rw [List.findIdx?_map]
    rfl
  have hhosts : (rs.modify j f).map (·.host) = rs.map (·.host) := by
    refine List.ext_getElem? fun k => ?_
    rw [List.getElem?_map, List.getElem?_map, List.getElem?_modify]
    cases rs[k]? with
    | none => rfl
    | some r =>
      by_cases hk : j = k
      · simp [hk, hf]
      · simp [hk]
  rw [hfind, hfind, hhosts]

end

/-! ## What the buffers hold -/

/-- The newer of the copies is what the column holds. Once the table is full its buffers are not
taken any more. -/
def EntryOk (full : Prop) (host contents : Column) (r : ResidentBuf κ) : Prop :=
  (r.gpuDirty = true →
    (∀ k < r.bytes, r.data k = contents k) ∧ ∀ k, r.bytes ≤ k → host k = contents k) ∧
  (r.gpuDirty = false →
    host = contents ∧ (¬ full → ∀ k < r.bytes, r.data k = contents k))

def State.full (s : State κ) : Prop := maxResident ≤ s.resident.length

/-- No column has two buffers, and each copy that may be used is current. -/
structure Coherent (s : State κ) (m : κ → Column) : Prop where
  unique : ∀ (i j : Nat) (r r' : ResidentBuf κ), s.resident[i]? = some r → s.resident[j]? = some r' →
    r.host = r'.host → i = j
  entry : ∀ (i : Nat) (r : ResidentBuf κ), s.resident[i]? = some r →
    EntryOk s.full (s.host r.host) (m r.host) r
  absent : ∀ c, residentFind s.resident c = none → s.host c = m c

variable {s s' : State κ} {m : κ → Column}

theorem coherent_start (host : κ → Column) : Coherent (start host).state (start host).contents where
  unique := by simp [start]
  entry := by simp [start]
  absent := fun _ _ => rfl

/-- A binding of a column that reads what the column holds. -/
def Bound (s : State κ) (m : κ → Column) (bytes : Nat) (c : κ) : Binding → Prop
  | .cached i => ∃ r, s.resident[i]? = some r ∧ r.host = c ∧ r.bytes = bytes ∧
    ∀ k < bytes, r.data k = m c k
  | .staged data => data = m c ∧ s.host c = m c ∧
    ∀ r ∈ s.resident, r.host = c → r.gpuDirty = false ∧ s.full

omit [DecidableEq κ] in
theorem Bound.inputs {bytes : Nat} {c : κ} {b : Binding} (h : Bound s m bytes c b) {k : Nat}
    (hk : k < bytes) : bufferData s b k = m c k := by
  cases b with
  | cached i =>
    obtain ⟨r, hr, -, -, hdata⟩ := h
    rw [bufferData, hr]
    exact hdata k hk
  | staged data =>
    obtain ⟨rfl, -, -⟩ := h
    rfl

/-! ### Binding -/

/-- The table has got entries of the columns more, and nothing else has changed. -/
structure Grown (s s' : State κ) (cs : List κ) : Prop where
  host : s'.host = s.host
  table : ∃ new, s'.resident = s.resident ++ new ∧ ∀ r ∈ new, r.host ∈ cs

omit [DecidableEq κ] in
theorem Grown.bound {cs : List κ} {bytes : Nat} {c : κ} {b : Binding} (hg : Grown s s' cs)
    (hc : c ∉ cs) (h : Bound s m bytes c b) : Bound s' m bytes c b := by
  obtain ⟨new, htable, hnew⟩ := hg.table
  cases b with
  | cached i =>
    obtain ⟨r, hr, hrest⟩ := h
    obtain ⟨hlt, -⟩ := List.getElem?_eq_some_iff.mp hr
    exact ⟨r, by rw [htable, List.getElem?_append_left hlt, hr], hrest⟩
  | staged data =>
    obtain ⟨hdata, hhost, hclean⟩ := h
    refine ⟨hdata, hg.host ▸ hhost, fun r hr hrc => ?_⟩
    rw [htable] at hr
    rcases List.mem_append.mp hr with hr | hr
    · obtain ⟨hd, hfull⟩ := hclean r hr hrc
      refine ⟨hd, ?_⟩
      unfold State.full at *
      rw [htable, List.length_append]
      omega
    · exact absurd (hrc ▸ hnew r hr) hc

/-- An entry is at its old place, or it is the new one. -/
theorem getElem?_snoc {α : Type} {l : List α} {x y : α} {i : Nat} (h : (l ++ [x])[i]? = some y) :
    l[i]? = some y ∨ i = l.length ∧ y = x := by
  rcases Nat.lt_trichotomy i l.length with hi | rfl | hi
  · rw [List.getElem?_append_left hi] at h
    exact .inl h
  · simp at h
    exact .inr ⟨rfl, h.symm⟩
  · rw [List.getElem?_eq_none (by simp; omega)] at h
    cases h

omit [DecidableEq κ] in
/-- A full table stays full. -/
theorem EntryOk.mono {full full' : Prop} {host contents : Column} {r : ResidentBuf κ}
    (h : EntryOk full host contents r) (hf : full → full') : EntryOk full' host contents r :=
  ⟨h.1, fun hd => ⟨(h.2 hd).1, fun hn => (h.2 hd).2 fun hfull => hn (hf hfull)⟩⟩

/-- A new entry has the host's copy. -/
theorem Coherent.append (h : Coherent s m) {c : κ} (hc : residentFind s.resident c = none)
    (bytes : Nat) :
    Coherent { s with resident := s.resident ++ [⟨c, s.host c, bytes, false⟩] } m where
  unique i j r r' hi hj hrr := by
    have hnone := residentFind_none.mp hc
    rcases getElem?_snoc hi with hi | ⟨rfl, rfl⟩
    · rcases getElem?_snoc hj with hj | ⟨rfl, rfl⟩
      · exact h.unique i j r r' hi hj hrr
      · exact absurd hrr (hnone r (List.mem_of_getElem? hi))
    · rcases getElem?_snoc hj with hj | ⟨rfl, rfl⟩
      · exact absurd hrr.symm (hnone r' (List.mem_of_getElem? hj))
      · rfl
  entry i r hi := by
    rcases getElem?_snoc hi with hi | ⟨rfl, rfl⟩
    · refine (h.entry i r hi).mono fun hfull => ?_
      show maxResident ≤ (s.resident ++ [_]).length
      rw [List.length_append]
      exact Nat.le_add_right_of_le hfull
    · have hcur := h.absent c hc
      exact ⟨nofun, fun _ => ⟨hcur, fun _ k _ => congrFun hcur k⟩⟩
  absent c' hc' := h.absent c' (residentFind_none.mpr fun r hr =>
    residentFind_none.mp hc' r (List.mem_append_left _ hr))

/-- What `Fits` says of one column. -/
def Fits1 (s : State κ) (d : Dispatch κ) (c : κ) : Prop :=
  ∀ i, residentFind s.resident c = some i → ∀ r, s.resident[i]? = some r →
    if d.resident = true ∧ s.resident.length < maxResident then r.bytes = d.bytes
    else s.full ∧ r.gpuDirty = false

omit [DecidableEq κ] in
theorem grown_refl (s : State κ) (cs : List κ) : Grown s s cs := ⟨rfl, [], by simp, by simp⟩

theorem bindColumn_grown (s : State κ) (d : Dispatch κ) (c : κ) : Grown s (bindColumn s d c).2 [c] := by
  unfold bindColumn
  split
  · split
    · split
      · exact grown_refl s _
      · exact ⟨rfl, _, rfl, by simp⟩
    · exact ⟨rfl, _, rfl, by simp⟩
  · exact grown_refl s _

theorem bindAll_grown (s : State κ) (d : Dispatch κ) (cs : List κ) : Grown s (bindAll s d cs).2 cs := by
  induction cs generalizing s with
  | nil => exact grown_refl s _
  | cons c cs ih =>
    obtain ⟨hhost, new, htable, hnew⟩ := bindColumn_grown s d c
    obtain ⟨hhost', new', htable', hnew'⟩ := ih (bindColumn s d c).2
    refine ⟨hhost'.trans hhost, new ++ new', ?_, fun r hr => ?_⟩
    · rw [← List.append_assoc, ← htable]
      exact htable'
    · rcases List.mem_append.mp hr with hr | hr
      · exact List.mem_cons.mpr (.inl (List.mem_singleton.mp (hnew r hr)))
      · exact List.mem_cons_of_mem _ (hnew' r hr)

/-- A column that fits is bound to what it holds. -/
theorem bindColumn_coherent (h : Coherent s m) {d : Dispatch κ} {c : κ} (hfit : Fits1 s d c) :
    Coherent (bindColumn s d c).2 m ∧
      Bound (bindColumn s d c).2 m d.bytes c (bindColumn s d c).1 := by
  unfold bindColumn
  by_cases htake : d.resident = true ∧ s.resident.length < maxResident
  · simp only [htake, and_self, if_true]
    cases hfind : residentFind s.resident c with
    | none =>
      exact ⟨h.append hfind d.bytes, ⟨c, s.host c, d.bytes, false⟩, by simp, rfl, rfl,
        fun k _ => congrFun (h.absent c hfind) k⟩
    | some i =>
      obtain ⟨r, hr, hrc⟩ := residentFind_some hfind
      have hbytes : r.bytes = d.bytes := by simpa [htake] using hfit i hfind r hr
      have hdata : ∀ k < d.bytes, r.data k = m c k := by
        have hentry := h.entry i r hr
        rw [hrc, EntryOk, hbytes] at hentry
        cases hd : r.gpuDirty with
        | true => exact (hentry.1 hd).1
        | false => exact (hentry.2 hd).2 (Nat.not_le_of_lt htake.2)
      simp only [hr, Option.any_some, hbytes, beq_self_eq_true, if_true]
      exact ⟨h, r, hr, hrc, hbytes, hdata⟩
  · simp only [htake, if_false]
    have hhost : s.host c = m c := by
      cases hfind : residentFind s.resident c with
      | none => exact h.absent c hfind
      | some i =>
        obtain ⟨r, hr, hrc⟩ := residentFind_some hfind
        have hclean : s.full ∧ r.gpuDirty = false := by simpa [htake] using hfit i hfind r hr
        exact hrc ▸ ((h.entry i r hr).2 hclean.2).1
    refine ⟨h, hhost, hhost, fun r hr hrc => ?_⟩
    obtain ⟨j, hj⟩ := List.getElem?_of_mem hr
    cases hfind : residentFind s.resident c with
    | none => exact absurd hrc (residentFind_none.mp hfind r hr)
    | some i =>
      obtain ⟨r', hr', hrc'⟩ := residentFind_some hfind
      have hij := h.unique j i r r' hj hr' (hrc.trans hrc'.symm)
      subst hij
      cases hj.symm.trans hr'
      have hclean : s.full ∧ r.gpuDirty = false := by simpa [htake] using hfit j hfind r hj
      exact ⟨hclean.2, hclean.1⟩

/-- The number of buffers at the next column's turn. -/
theorem bindColumn_length {d : Dispatch κ} {c : κ} (hfit : Fits1 s d c) :
    (bindColumn s d c).2.resident.length = if residentFind s.resident c = none then
      if d.resident = true ∧ s.resident.length < maxResident then s.resident.length + 1
      else s.resident.length
    else s.resident.length := by
  unfold bindColumn
  by_cases htake : d.resident = true ∧ s.resident.length < maxResident
  · simp only [htake, and_self, if_true]
    cases hfind : residentFind s.resident c with
    | none => simp
    | some i =>
      obtain ⟨r, hr, -⟩ := residentFind_some hfind
      have hbytes : r.bytes = d.bytes := by simpa [htake] using hfit i hfind r hr
      simp [hr, hbytes]
  · simp only [htake, if_false, ite_self]

/-- All columns are bound to what they hold. -/
theorem bindAll_coherent {d : Dispatch κ} {rs new : List (ResidentBuf κ)} {cs : List κ}
    (h : Coherent s m) (htable : s.resident = rs ++ new) (hnew : ∀ r ∈ new, r.host ∉ cs)
    (hcs : cs.Nodup) (hfits : Fits rs d s.resident.length cs) :
    Coherent (bindAll s d cs).2 m ∧
      List.Forall₂ (Bound (bindAll s d cs).2 m d.bytes) cs (bindAll s d cs).1 := by
  induction cs generalizing s new with
  | nil => exact ⟨h, .nil⟩
  | cons c cs ih =>
    obtain ⟨hc, hcs⟩ := List.nodup_cons.mp hcs
    have hfind : residentFind s.resident c = residentFind rs c := by
      rw [htable]
      exact residentFind_append fun r hr hrc => hnew r hr (hrc ▸ List.mem_cons_self)
    have hfit : Fits1 s d c := by
      intro i hi r hr
      rw [hfind] at hi
      obtain ⟨r', hr', -⟩ := residentFind_some hi
      obtain ⟨hlt, -⟩ := List.getElem?_eq_some_iff.mp hr'
      rw [htable, List.getElem?_append_left hlt] at hr
      unfold Fits at hfits
      simp only [hi] at hfits
      exact hfits.1 r hr
    obtain ⟨hcoh, hbound⟩ := bindColumn_coherent h hfit
    have hlength := bindColumn_length hfit
    have hrest : Fits rs d (bindColumn s d c).2.resident.length cs := by
      rw [hlength, hfind]
      unfold Fits at hfits
      cases hi : residentFind rs c with
      | none =>
        simp only [hi] at hfits
        exact hfits
      | some i =>
        simp only [hi] at hfits
        exact hfits.2
    obtain ⟨new', htable', hnew'⟩ := (bindColumn_grown s d c).table
    rw [htable, List.append_assoc] at htable'
    obtain ⟨hcoh', hbound'⟩ := ih hcoh htable' (fun r hr hrc => by
      rcases List.mem_append.mp hr with hr | hr
      · exact hnew r hr (List.mem_cons_of_mem _ hrc)
      · exact hc (List.mem_singleton.mp (hnew' r hr) ▸ hrc)) hcs hrest
    exact ⟨hcoh', .cons ((bindAll_grown _ d cs).bound hc hbound) hbound'⟩

/-! ### Changing a column -/

/-- A change of one column, of its host array and its buffer. -/
theorem Coherent.change (h : Coherent s m) {c : κ} {v : Column}
    (hhost : ∀ c' ≠ c, s'.host c' = s.host c')
    (hlen : s'.resident.length = s.resident.length)
    (htable : ∀ (i : Nat) (r' : ResidentBuf κ), s'.resident[i]? = some r' →
      ∃ r, s.resident[i]? = some r ∧ r.host = r'.host ∧ (r.host ≠ c → r' = r))
    (hentry : ∀ (i : Nat) (r' : ResidentBuf κ), s'.resident[i]? = some r' → r'.host = c →
      EntryOk s.full (s'.host c) v r')
    (habsent : residentFind s.resident c = none → s'.host c = v) :
    Coherent s' (Function.update m c v) where
  unique i j r r' hi hj hrr := by
    obtain ⟨r₁, hr₁, hh₁, -⟩ := htable i r hi
    obtain ⟨r₂, hr₂, hh₂, -⟩ := htable j r' hj
    exact h.unique i j r₁ r₂ hr₁ hr₂ (hh₁.trans (hrr.trans hh₂.symm))
  entry i r' hi := by
    have hfull : s.full → s'.full := fun hf => by
      unfold State.full at *
      rwa [hlen]
    by_cases hc : r'.host = c
    · rw [hc, Function.update_self]
      exact (hentry i r' hi hc).mono hfull
    · obtain ⟨r, hr, hrh, heq⟩ := htable i r' hi
      have hrc : r.host ≠ c := fun hrc => hc (hrh.symm.trans hrc)
      rw [Function.update_of_ne hc, hhost _ hc, heq hrc]
      exact (h.entry i r hr).mono hfull
  absent c' hc' := by
    have hold : residentFind s.resident c' = none := by
      refine residentFind_none.mpr fun r hr hrc => ?_
      obtain ⟨i, hi⟩ := List.getElem?_of_mem hr
      obtain ⟨hlt, -⟩ := List.getElem?_eq_some_iff.mp hi
      have hi' : s'.resident[i]? = some s'.resident[i] := List.getElem?_eq_getElem (by omega)
      obtain ⟨r₁, hr₁, hh, -⟩ := htable i _ hi'
      cases hi.symm.trans hr₁
      exact residentFind_none.mp hc' _ (List.mem_of_getElem? hi') (hh.symm.trans hrc)
    by_cases hcc : c' = c
    · subst hcc
      rw [Function.update_self]
      exact habsent hold
    · rw [Function.update_of_ne hcc, hhost c' hcc]
      exact h.absent c' hold

/-- A change of the host array alone. -/
theorem Coherent.setHost (h : Coherent s m) {c : κ} {v : Column}
    (hentry : ∀ r ∈ s.resident, r.host = c → EntryOk s.full v v r) :
    Coherent { s with host := Function.update s.host c v } (Function.update m c v) :=
  h.change (fun c' hc' => Function.update_of_ne hc' _ _) rfl
    (fun i r' hi => ⟨r', hi, rfl, fun _ => rfl⟩)
    (fun i r' hi hc => by
      show EntryOk s.full (Function.update s.host c v c) v r'
      rw [Function.update_self]
      exact hentry r' (List.mem_of_getElem? hi) hc)
    (fun _ => Function.update_self _ _ _)

/-- A change of the buffer of a column, and of its host array. -/
theorem Coherent.modify (h : Coherent s m) {c : κ} {w v : Column} {i : Nat} {r : ResidentBuf κ}
    {f : ResidentBuf κ → ResidentBuf κ} (hf : ∀ r, (f r).host = r.host) (hr : s.resident[i]? = some r)
    (hrc : r.host = c) (hentry : EntryOk s.full w v (f r)) :
    Coherent { s with host := Function.update s.host c w, resident := s.resident.modify i f }
      (Function.update m c v) := by
  have htable : ∀ (j : Nat) (r' : ResidentBuf κ), (s.resident.modify i f)[j]? = some r' →
      if i = j then r' = f r else s.resident[j]? = some r' := by
    intro j r' hj
    rw [List.getElem?_modify] at hj
    split
    · next hij =>
      subst hij
      simpa [hr] using hj.symm
    · next hij => simpa [hij] using hj
  refine h.change (fun c' hc' => Function.update_of_ne hc' _ _) (List.length_modify ..)
    (fun j r' hj => ?_) (fun j r' hj hc => ?_) fun hnone => ?_
  · have hold := htable j r' hj
    split at hold
    · next hij =>
      subst hij hold
      exact ⟨r, hr, (hf r).symm, fun hne => absurd hrc hne⟩
    · exact ⟨r', hold, rfl, fun _ => rfl⟩
  · have hold := htable j r' hj
    split at hold
    · next hij =>
      subst hold
      show EntryOk s.full (Function.update s.host c w c) v (f r)
      rw [Function.update_self]
      exact hentry
    · next hij => exact absurd (h.unique i j r r' hr hold (hrc.trans hc.symm)) hij
  · exact absurd hrc (residentFind_none.mp hnone r (List.mem_of_getElem? hr))

/-- A change of the buffer of a column alone. -/
theorem Coherent.modifyBuffer (h : Coherent s m) {c : κ} {v : Column} {i : Nat} {r : ResidentBuf κ}
    {f : ResidentBuf κ → ResidentBuf κ} (hf : ∀ r, (f r).host = r.host) (hr : s.resident[i]? = some r)
    (hrc : r.host = c) (hentry : EntryOk s.full (s.host c) v (f r)) :
    Coherent { s with resident := s.resident.modify i f } (Function.update m c v) := by
  have hmod := h.modify hf hr hrc hentry
  rwa [Function.update_eq_self] at hmod

/-! ### The operations -/

/-- A buffer of the table is written and marked. -/
theorem finishColumn_cached (h : Coherent s m) {bytes : Nat} (out : Column) {c : κ} {i : Nat}
    {r : ResidentBuf κ} (hr : s.resident[i]? = some r) (hrc : r.host = c) :
    finishColumn s bytes out c (.cached i) = { s with
      resident := s.resident.modify i (ResidentBuf.mark true ∘ ResidentBuf.write bytes out) } := by
  have hfind : residentFind s.resident c = some i := by
    cases hj : residentFind s.resident c with
    | none => exact absurd hrc (residentFind_none.mp hj r (List.mem_of_getElem? hr))
    | some j =>
      obtain ⟨r', hr', hrc'⟩ := residentFind_some hj
      rw [h.unique j i r' r hr' hr (hrc'.trans hrc.symm)]
  have hhost : ∀ r : ResidentBuf κ, (r.write bytes out).host = r.host := fun _ => rfl
  simp only [finishColumn, residentFind_modify hhost, hfind, List.modify_modify_eq]

/-- The shader has written a column: the buffer, or the copy that goes back to the host. -/
theorem finishColumn_coherent (h : Coherent s m) {bytes : Nat} (out : Column) {c : κ} {b : Binding}
    (hb : Bound s m bytes c b) :
    Coherent (finishColumn s bytes out c b) (Function.update m c (overlay bytes out (m c))) := by
  cases b with
  | cached i =>
    obtain ⟨r, hr, hrc, hbytes, hdata⟩ := hb
    rw [finishColumn_cached h out hr hrc]
    have hbehind : ∀ k, bytes ≤ k → s.host c k = m c k := by
      have hentry := h.entry i r hr
      rw [hrc, EntryOk, hbytes] at hentry
      intro k hk
      cases hd : r.gpuDirty with
      | true => exact (hentry.1 hd).2 k hk
      | false => exact congrFun (hentry.2 hd).1 k
    refine h.modifyBuffer (fun _ => rfl) hr hrc ⟨fun _ => ⟨fun k hk => ?_, fun k hk => ?_⟩, nofun⟩
    · have hk : k < bytes := hbytes ▸ hk
      show overlay bytes out r.data k = overlay bytes out (m c) k
      rw [overlay_lt _ _ hk, overlay_lt _ _ hk]
    · have hk : bytes ≤ k := hbytes ▸ hk
      rw [overlay_ge _ _ hk]
      exact hbehind k hk
  | staged data =>
    obtain ⟨-, hhost, hclean⟩ := hb
    rw [← hhost]
    exact h.setHost fun r hr hrc =>
      ⟨fun hd => absurd ((hclean r hr hrc).1.symm.trans hd) nofun,
        fun _ => ⟨rfl, fun hn => absurd (hclean r hr hrc).2 hn⟩⟩

/-- Nothing has changed but for a column. -/
structure Others (s s' : State κ) (c : κ) : Prop where
  host : ∀ c' ≠ c, s'.host c' = s.host c'
  length : s'.resident.length = s.resident.length
  table : ∀ (j : Nat) (r : ResidentBuf κ), r.host ≠ c →
    (s'.resident[j]? = some r ↔ s.resident[j]? = some r)

theorem Others.bound {bytes : Nat} {c c' : κ} {b : Binding} (ho : Others s s' c) (hne : c' ≠ c)
    (hb : Bound s m bytes c' b) (v : Column) : Bound s' (Function.update m c v) bytes c' b := by
  have hm : Function.update m c v c' = m c' := Function.update_of_ne hne _ _
  cases b with
  | cached i =>
    obtain ⟨r, hr, hrc, hbytes, hdata⟩ := hb
    exact ⟨r, (ho.table i r (hrc ▸ hne)).mpr hr, hrc, hbytes, hm ▸ hdata⟩
  | staged data =>
    obtain ⟨hdata, hhost, hclean⟩ := hb
    refine ⟨hm ▸ hdata, by rw [ho.host c' hne, hm, hhost], fun r hr hrc => ?_⟩
    obtain ⟨j, hj⟩ := List.getElem?_of_mem hr
    have hold := (ho.table j r (hrc ▸ hne)).mp hj
    obtain ⟨hd, hfull⟩ := hclean r (List.mem_of_getElem? hold) hrc
    refine ⟨hd, ?_⟩
    unfold State.full at *
    rwa [ho.length]

omit [DecidableEq κ] in
/-- A change of an entry of the column. -/
theorem Others.modify {c : κ} {i : Nat} {f : ResidentBuf κ → ResidentBuf κ}
    (hf : ∀ r, (f r).host = r.host) (hi : ∀ r, s.resident[i]? = some r → r.host = c) :
    Others s { s with resident := s.resident.modify i f } c where
  host _ _ := rfl
  length := List.length_modify ..
  table j r hne := by
    show (s.resident.modify i f)[j]? = some r ↔ _
    rw [List.getElem?_modify]
    by_cases hij : i = j
    · subst hij
      cases hr : s.resident[i]? with
      | none => simp
      | some r' =>
        have hc := hi r' hr
        simp only [if_true, Option.map_eq_map, Option.map_some, Option.some.injEq]
        exact ⟨fun h => absurd ((h ▸ hf r').trans hc) hne, fun h => absurd (h ▸ hc) hne⟩
    · simp [hij]

theorem finishColumn_others (h : Coherent s m) {bytes : Nat} (out : Column) {c : κ} {b : Binding}
    (hb : Bound s m bytes c b) : Others s (finishColumn s bytes out c b) c := by
  cases b with
  | cached i =>
    obtain ⟨r, hr, hrc, -, -⟩ := hb
    rw [finishColumn_cached h out hr hrc]
    refine Others.modify (fun _ => rfl) fun r' hr' => ?_
    cases hr.symm.trans hr'
    exact hrc
  | staged data => exact ⟨fun c' hc' => Function.update_of_ne hc' _ _, rfl, fun _ _ _ => Iff.rfl⟩

/-- The shader has written all columns. -/
theorem finishAll_coherent {bytes : Nat} (out : Nat → Column) {cs : List κ} {bs : List Binding}
    (h : Coherent s m) (hcs : cs.Nodup) (hbs : List.Forall₂ (Bound s m bytes) cs bs) :
    Coherent (finishAll s bytes out (cs.zip bs)) (written m bytes out cs) := by
  induction cs generalizing s m out bs with
  | nil =>
    cases hbs
    exact h
  | cons c cs ih =>
    obtain ⟨hc, hcs⟩ := List.nodup_cons.mp hcs
    cases hbs with
    | cons hb hbs =>
      refine ih _ (finishColumn_coherent h (out 0) hb) hcs ?_
      have ho := finishColumn_others h (out 0) hb
      have hne : ∀ c' ∈ cs, c' ≠ c := fun c' hc' heq => hc (heq ▸ hc')
      exact ((List.forall₂_and_left _ _).mpr ⟨hne, hbs⟩).imp fun c' b' hb' => ho.bound hb'.1 hb'.2 _

omit [DecidableEq κ] in
/-- The shader reads what the columns hold. -/
theorem inputs_eq {bytes : Nat} {cs : List κ} {bs : List Binding}
    (hbs : List.Forall₂ (Bound s m bytes) cs bs) {b : Nat} {c : κ} (hc : cs[b]? = some c) {k : Nat}
    (hk : k < bytes) : inputs s bytes bs b k = m c k := by
  rw [inputs, overlay_lt _ _ hk]
  induction hbs generalizing b with
  | nil => simp at hc
  | cons hb _ ih =>
    cases b with
    | zero =>
      cases hc
      exact hb.inputs hk
    | succ b => exact ih hc

/-- A dispatch that finds buffers that fit computes on what its columns hold. -/
theorem dispatch_coherent (h : Coherent s m) (dev : Device) {d : Dispatch κ}
    (hfits : (prepare dev s d).isSome → Fits s.resident d s.resident.length d.cols) {l : Launch}
    (hl : (dispatch dev s d).1 = some l) :
    Coherent (dispatch dev s d).2 (written m d.bytes l.outputs d.cols) ∧
      ∀ b c, d.cols[b]? = some c → ∀ k < d.bytes, l.inputs b k = m c k := by
  unfold dispatch at hl ⊢
  cases hp : prepare dev s d with
  | none => simp [hp] at hl
  | some p =>
    obtain ⟨sh, pipes⟩ := p
    rw [hp] at hfits hl
    simp only [Option.some.injEq] at hl ⊢
    subst hl
    have hstart : Coherent { s with pipes := pipes } m := ⟨h.unique, h.entry, h.absent⟩
    obtain ⟨hcoh, hbound⟩ := bindAll_coherent hstart (List.append_nil _).symm
      (by simp) d.nodup (hfits rfl)
    exact ⟨finishAll_coherent _ hcoh d.nodup hbound, fun b c hc k hk => inputs_eq hbound hc hk⟩

/-- A dispatch without a launch does nothing. -/
theorem dispatch_none {dev : Device} {d : Dispatch κ} (h : (dispatch dev s d).1 = none) :
    (dispatch dev s d).2 = s := by
  unfold dispatch at h ⊢
  cases hp : prepare dev s d with
  | none => rfl
  | some p => simp [hp] at h

/-! ### Sync and upload -/

/-- After a sync of a column the host has what it holds. -/
theorem syncColumn_coherent (h : Coherent s m) (c : κ) :
    Coherent (syncColumn s c) m ∧ (syncColumn s c).host c = m c ∧
      ∀ c', s.host c' = m c' → (syncColumn s c).host c' = m c' := by
  unfold syncColumn
  cases hfind : residentFind s.resident c with
  | none => exact ⟨h, h.absent c hfind, fun _ hc' => hc'⟩
  | some i =>
    obtain ⟨r, hr, hrc⟩ := residentFind_some hfind
    simp only [hr]
    have hentry := h.entry i r hr
    rw [hrc] at hentry
    cases hd : r.gpuDirty with
    | false => exact ⟨h, (hentry.2 hd).1, fun _ hc' => hc'⟩
    | true =>
      obtain ⟨hdata, hbehind⟩ := hentry.1 hd
      have hover : overlay r.bytes r.data (s.host c) = m c := by
        funext k
        by_cases hk : k < r.bytes
        · rw [overlay_lt _ _ hk, hdata k hk]
        · rw [overlay_ge _ _ (by omega), hbehind k (by omega)]
      have hcoh := h.modify (f := ResidentBuf.mark false) (w := m c) (v := m c) (fun _ => rfl) hr hrc
        ⟨nofun, fun _ => ⟨rfl, fun _ => hdata⟩⟩
      rw [Function.update_eq_self] at hcoh
      simp only [if_true, hover]
      refine ⟨hcoh, Function.update_self _ _ _, fun c' hc' => ?_⟩
      by_cases hcc : c' = c
      · subst hcc
        exact Function.update_self _ _ _
      · exact (Function.update_of_ne hcc _ _).trans hc'

theorem sync_coherent (h : Coherent s m) (cols : List κ) :
    Coherent (sync s cols) m ∧ (∀ c ∈ cols, (sync s cols).host c = m c) ∧
      ∀ c, s.host c = m c → (sync s cols).host c = m c := by
  induction cols generalizing s with
  | nil => exact ⟨h, by simp, fun _ hc => hc⟩
  | cons c cs ih =>
    obtain ⟨hcoh, hself, hkeep⟩ := syncColumn_coherent h c
    obtain ⟨hcoh', hall, hkeep'⟩ := ih hcoh
    exact ⟨hcoh', List.forall_mem_cons.mpr ⟨hkeep' c hself, hall⟩, fun c' hc' => hkeep' c' (hkeep c' hc')⟩

theorem uploadColumn_coherent (h : Coherent s m) (c : κ) :
    Coherent (uploadColumn s c) (Function.update m c (s.host c)) ∧ (uploadColumn s c).host = s.host := by
  unfold uploadColumn
  cases hfind : residentFind s.resident c with
  | none =>
    rw [h.absent c hfind, Function.update_eq_self]
    exact ⟨h, rfl⟩
  | some i =>
    obtain ⟨r, hr, hrc⟩ := residentFind_some hfind
    refine ⟨h.modifyBuffer (fun _ => rfl) hr hrc ⟨nofun, fun _ => ⟨rfl, fun _ k hk => ?_⟩⟩, rfl⟩
    exact overlay_lt _ _ hk

/-- After an upload the columns hold the host's values. -/
theorem upload_coherent (h : Coherent s m) (cols : List κ) :
    Coherent (upload s cols) (uploaded s.host m cols) := by
  induction cols generalizing s m with
  | nil => exact h
  | cons c cs ih =>
    obtain ⟨hcoh, hhost⟩ := uploadColumn_coherent h c
    have huploaded : uploaded s.host m (c :: cs) =
        uploaded (uploadColumn s c).host (Function.update m c (s.host c)) cs := by
      funext c'
      rw [hhost]
      by_cases hcc : c' = c
      · subst hcc
        simp [uploaded]
      · simp [uploaded, hcc]
    rw [huploaded]
    exact ih hcoh

/-- A host write, and the upload of the column. -/
theorem hostWrite_coherent (h : Coherent s m) (c : κ) (v : Column) :
    Coherent (upload { s with host := Function.update s.host c v } [c]) (Function.update m c v) := by
  show Coherent (uploadColumn _ c) _
  unfold uploadColumn
  cases hfind : residentFind s.resident c with
  | none =>
    exact h.setHost fun r hr hrc => absurd hrc (residentFind_none.mp hfind r hr)
  | some i =>
    obtain ⟨r, hr, hrc⟩ := residentFind_some hfind
    simp only [Function.update_self]
    refine h.modify (fun _ => rfl) hr hrc ⟨nofun, fun _ => ⟨rfl, fun _ k hk => ?_⟩⟩
    exact overlay_lt _ _ hk

/-! ## Every run -/

theorem next_coherent {dev : Device} {t : Machine κ} {op : Op κ} (h : Coherent t.state t.contents)
    (hs : Steady dev t op) : Coherent (t.next dev op).state (t.next dev op).contents := by
  cases op with
  | dispatch d =>
    simp only [Machine.next]
    cases hl : (dispatch dev t.state d).1 with
    | none =>
      rw [dispatch_none hl]
      exact h
    | some l => exact (dispatch_coherent h dev hs hl).1
  | sync cols => exact (sync_coherent h cols).1
  | upload cols => exact upload_coherent h cols
  | hostWrite c v => exact hostWrite_coherent h c v

/-- In a run whose dispatches find buffers that fit, every step sees what the columns hold. -/
theorem runs_current (dev : Device) (host : κ → Column) {ops : List (Op κ)} {t : Machine κ}
    (hrun : Run (Guarded (Step dev) (Steady dev)) (start host) ops t) {op : Op κ}
    (hop : Steady dev t op) : Current dev t op := by
  have h : Coherent t.state t.contents :=
    hrun.inv (fun t => Coherent t.state t.contents) (coherent_start host) fun a l b ha hab => by
      obtain ⟨rfl, hs⟩ := hab
      exact next_coherent ha hs
  cases op with
  | dispatch d => exact fun l hl => (dispatch_coherent h dev hop hl).2
  | sync cols => exact (sync_coherent h cols).2.1
  | upload | hostWrite => trivial

/-- A kernel that adds one to every byte of its one column. -/
def increment : Shader := ⟨"increment", 1, fun _ ins b k => ins b k + 1⟩

def sampleDevice : Device := ⟨true, fun name => if name = "increment" then some increment else none⟩

def sampleDispatch (count : Nat) : Dispatch Unit := ⟨"increment", [()], 4, count, true, by simp⟩

/-- A column of zeros that was dispatched over one row. -/
def dispatched : Machine Unit := (start fun _ _ => 0).next sampleDevice (.dispatch (sampleDispatch 1))

/-- Two dispatches over as many rows, and a sync. -/
theorem runs_current_sample :
    Current sampleDevice (dispatched.next sampleDevice (.dispatch (sampleDispatch 1))) (.sync [()]) := by
  have h₁ : Steady sampleDevice (start fun _ _ => 0) (.dispatch (sampleDispatch 1)) := fun _ => trivial
  have h₂ : Steady sampleDevice dispatched (.dispatch (sampleDispatch 1)) := by
    refine fun _ => ⟨fun r hr => ?_, trivial⟩
    cases hr
    rfl
  exact runs_current sampleDevice (fun _ _ => 0) ((Run.nil.snoc ⟨rfl, h₁⟩).snoc ⟨rfl, h₂⟩) trivial

/-- Behind a dispatch over one row, a dispatch over two computes on what the host had before. -/
theorem not_runs_current : ¬ ∀ (ops : List (Op Unit)) (t : Machine Unit) (op : Op Unit),
    Run (Step sampleDevice) (start fun _ _ => 0) ops t → Current sampleDevice t op := by
  intro h
  have hrun : Run (Step sampleDevice) (start fun _ _ => 0) [.dispatch (sampleDispatch 1)] dispatched :=
    Run.nil.snoc rfl
  have hstale := h _ _ (.dispatch (sampleDispatch 2)) hrun _ rfl 0 () rfl 0 (by decide)
  revert hstale
  decide

end Arche.Runtime.GpuResident
