import Arche.Semantic.WriteSafety

/-!
# The write set of a kernel

A `map`, `each` or `system` lists the query columns it writes in its `(writes)`, and
`kernel_writes_end` compares the list with the columns collected while the body was
analysed. Only assignments are collected, by the leftmost name of the target: a
column that is a target of an out-list or of a multiple bind, that is passed for an
in-out parameter, or that is written as `me.c`, is not. The code of such a call stores
its result into the row (`fmt.sprintf(…)(buf, body_len)`) as an assignment does.

1. `writes_listed`: every column an accepted kernel writes is listed by a kernel that
   binds it, if those are that are not collected.
2. `not_writes_listed`: a column as an out-target.
-/

namespace Arche.Semantic.Writes

open Arche.Lib
open Views (TyKind)

/-- One of the kernels around a write binds the column and lists it. A write outside of kernels is
in no set. -/
def Listed (ks : List Kernel) (c : String) : Prop :=
  ks ≠ [] → ∃ k ∈ ks, k.binds c = true ∧ c ∈ k.writes

namespace Kernel

/-- The front end reports nothing for the kernel. -/
def Accepted (X : Context) (k : Kernel) (body : List Stmt) : Prop :=
  ∀ d, .error d ∉ analyzeStmt X [] false [] (.fan k body)

/-- The paths of a kernel over any number of rows. -/
def Runs (X : Context) (k : Kernel) (body : List Stmt) (t : List Event) : Prop :=
  ∃ o r, Exec X [] (.fan k body) [] o r t

end Kernel

/-- Every column written is in a write set. -/
def ListsWrites (t : List Event) : Prop :=
  ∀ ks c, .wrote ks (.column c) ∈ t → Listed ks c

theorem Decl.storage_column {d : Decl} {c : String} (h : d.storage = .column c) :
    d.isParam = true ∧ d.name = c := by
  unfold Decl.storage at h
  split at h
  · next hd => exact ⟨(Bool.and_eq_true_iff.mp hd).2, Storage.column.inj h⟩
  · split at h <;> cases h

/-- A column that is collected is listed by a kernel that binds it, if the kernels list columns of
their own. -/
theorem Settled.listed {X : Context} {c : String} {ks : List Kernel} (h : Settled X c ks)
    (hlen : ks.length ≤ stackSize) (hfan : ∀ k ∈ ks, ∀ w ∈ k.writes, k.binds w = true) :
    Listed ks c := by
  intro hne
  cases ks with
  | nil => exact absurd rfl hne
  | cons k ks =>
    obtain ⟨k', hk', hw⟩ : ∃ k' ∈ k :: ks, c ∈ k'.writes := by
      rcases h with h | h
      · exact ⟨k, List.mem_cons_self, by simpa using h⟩
      · obtain ⟨k', hk', hw⟩ := exists_of_colIsDeclaredWrite (Nat.le_of_succ_le hlen) h
        exact ⟨k', List.mem_cons_of_mem k hk', hw⟩
    exact ⟨k', hk', hfan k' hk' c hw, hw⟩

/-- Every write of a column is listed, and a kernel lists columns of its own. -/
def writeRule (X : Context) : Rule X where
  good ks s := ∀ c, s = .column c → Listed ks c
  fan k := ∀ w ∈ k.writes, k.binds w = true
  other _ _ h := Storage.noConfusion h
  direct ks d hlen hfan hpass c hs := by
    obtain ⟨hparam, rfl⟩ := Decl.storage_column hs
    exact (hpass.settled hparam).listed hlen hfan

/-- The columns are listed that the kernel writes by an out-target or an in-out argument, through a
local that is a view of them, or by the name of the pool or row; every kernel lists columns of its
own; kernels are nested at most 16 deep and no increment declares a variable. -/
def Kernel.Covers (X : Context) (k : Kernel) (body : List Stmt) : Prop :=
  Spares (writeRule X) (aliasesAll body) [] (.fan k body)

/-- Every column an accepted kernel writes is listed. -/
theorem writes_listed {X : Context} {k : Kernel} {body : List Stmt} {t : List Event}
    (hacc : k.Accepted X body) (hcov : k.Covers X body) (hrun : k.Runs X body t) :
    ListsWrites t := by
  obtain ⟨o, r, hrun⟩ := hrun
  have hclean : Clean X [] (analyzeStmt X [] false [] (.fan k body)) :=
    ⟨hacc, fun _ _ => trivial⟩
  have hsound := exec_sound (R := writeRule X) (.fan k body) (Nat.zero_le _)
    (fun _ hk => absurd hk List.not_mem_nil) hclean hcov (List.Subset.refl _)
  have hinv : Inv (aliasesAll body) [] [] := ⟨rfl, fun _ hv => absurd hv List.not_mem_nil⟩
  obtain ⟨hgood, -⟩ := hsound [] o r t hinv hrun fun _ _ => trivial
  intro ks c hc
  exact hgood _ hc c rfl

/-! ## Instances -/

/-- `each (query { n })` with the given `(writes)`. -/
def eachN (writes : List String) : Kernel :=
  { isMap := false, cols := [("n", .other)], rowVar := none, driver := ["P"], joined := [], writes }

/-- `count()(n);`: the result goes to the column. -/
def countInto : List Stmt := [.call [] [⟨"n", false, .other⟩]]

theorem eachN_run (X : Context) (writes : List String) :
    (eachN writes).Runs X countInto [.wrote [eachN writes] (.column "n")] := by
  let col : Decl := { name := "n", kind := .other, isParam := true, isColumn := true }
  let r : List Var := [⟨col, .column "n"⟩]
  have hfill : fillOuts X [eachN writes] [] [⟨"n", false, .other⟩] r .normal r
      [.wrote [eachN writes] (.column "n")] :=
    .inr ⟨r, [.wrote [eachN writes] (.column "n")], [], ⟨rfl, rfl, rfl⟩, Path.skip_run r, rfl⟩
  have hcall : Exec X [eachN writes] (.call [] [⟨"n", false, .other⟩]) r .normal r
      [.wrote [eachN writes] (.column "n")] :=
    Path.seq_run (Path.skip_run r) hfill
  have hbody : Path.seq (enter (eachN writes).decls) (ExecAll X [eachN writes] countInto) [] .normal
      r [.wrote [eachN writes] (.column "n")] :=
    Path.seq_run (Path.act_run _ _) (Path.seq_run hcall (Path.skip_run r))
  have hloop : Exec X [] (.fan (eachN writes) countInto) [] .normal (cutBack [] r)
      ([] ++ [.wrote [eachN writes] (.column "n")]) :=
    .last rfl (Path.skip_run []) hbody (.inl rfl)
  exact ⟨_, _, hloop⟩

theorem eachN_accepted (writes : List String) :
    (eachN writes).Accepted Context.plain countInto := by
  intro d
  have hnil : analyzeStmt Context.plain [] false [] (.fan (eachN writes) countInto) = [] := rfl
  rw [hnil]
  exact List.not_mem_nil

/-- An out-target that is listed. -/
theorem eachN_lists : ListsWrites [.wrote [eachN ["n"]] (.column "n")] := by
  refine writes_listed (k := eachN ["n"]) (eachN_accepted _) ?_ (eachN_run Context.plain _)
  have hown : ∀ w ∈ (eachN ["n"]).writes, (eachN ["n"]).binds w = true := by decide
  refine ⟨by decide, hown, ⟨nofun, fun o ho _ s hs c hc => ?_⟩, trivial⟩
  cases List.mem_singleton.mp ho
  subst hc
  obtain ⟨home, hhome, hreach⟩ := hs
  have hgives {x y : String} : ¬ Gives (aliasesAll countInto) x y := by
    rintro ⟨e, he, hy⟩
    obtain ⟨rfl, rfl⟩ : x = "n" ∧ e = .call .other [] := by
      simpa [countInto, aliasesAll, aliases] using he
    simp [viewed, viewedAll] at hy
  cases hhome
  obtain rfl : "n" = c := by
    cases hreach with
    | refl => rfl
    | tail _ h => exact absurd h hgives
  exact fun _ => ⟨eachN ["n"], List.mem_singleton.mpr rfl, by decide, by decide⟩

/-- An out-target is not collected. -/
theorem not_writes_listed :
    ¬∀ X k body t, Kernel.Accepted X k body → k.Runs X body t → ListsWrites t := by
  intro h
  have hlists := h Context.plain (eachN []) countInto _ (eachN_accepted []) (eachN_run _ _)
  obtain ⟨k, hk, -, hw⟩ := hlists [eachN []] "n" List.mem_cons_self (List.cons_ne_nil _ _)
  cases List.mem_singleton.mp hk
  exact absurd hw List.not_mem_nil

end Arche.Semantic.Writes
