import Arche.Semantic.WriteSafety

/-!
# Borrowed storage

A parameter of array or slice type that is neither `own` nor an out place is a view of
what the caller owns, and an array constant is read-only. `analyze_statement` rejects
an assignment whose target begins with the name of either. It does not know that a
local can be a view of the same storage: `borrows_local` is set for a slice of a local
array only, so `s := xs[0:2]; s[0] = 9;` passes.

1. `borrowed_unwritten`: no path of an accepted body writes borrowed storage, if none
   is written through a name that was made a view of it or by a call.
2. `not_borrowed_unwritten`: a slice of a parameter.
-/

namespace Arche.Semantic.Writes

open Arche.Lib
open Views (TyKind)

structure Param where
  name : String
  kind : TyKind
  isOwn : Bool := false
deriving DecidableEq, Repr

/-- A func, or a proc with its out-parameters. -/
structure Callable where
  params : List Param
  outs : List (String × TyKind)
  body : List Stmt

namespace Callable

/-- The out-parameters come after the parameters and take the name of an in-out one. -/
def decls (f : Callable) : List Decl :=
  ((f.params.map fun p =>
      { name := p.name, kind := p.kind, isParam := true, isOwn := p.isOwn : Decl }) ++
    f.outs.map fun o =>
      { name := o.1, kind := o.2, isParam := true, isOutPlace := true,
        isOwn := ((f.params.find? (·.name == o.1)).map Param.isOwn).getD true : Decl }).reverse

def entry (f : Callable) : List Var := f.decls.map fun d => ⟨d, d.storage⟩

/-- `x` is a parameter of array or slice type that is neither `own` nor an out place. -/
def borrows (f : Callable) (x : String) : Bool :=
  (f.params.any fun p => p.name == x && p.kind.byref && !p.isOwn) &&
    !f.outs.any fun o => o.1 == x

/-- The front end reports nothing. -/
def Accepted (X : Context) (f : Callable) : Prop :=
  ∀ d, .error d ∉ analyzeStmts X [] false f.decls f.body

/-- The paths of a call. -/
def Runs (X : Context) (f : Callable) (t : List Event) : Prop :=
  ∃ o r, ExecAll X [] f.body f.entry o r t

/-- The storage belongs to a parameter the call borrows or to an array constant. -/
def Foreign (X : Context) (f : Callable) : Storage → Prop
  | .param x => f.borrows x = true
  | .const x => X.constArray x = true
  | .column _ | .other => False

/-- No element of borrowed storage is written. -/
def Keeps (X : Context) (f : Callable) (t : List Event) : Prop :=
  ∀ ks s, .wrote ks s ∈ t → ¬ f.Foreign X s

end Callable

/-! ## The rule -/

theorem Decl.storage_param {d : Decl} {x : String} (h : d.storage = .param x) :
    d.borrowed = true ∧ d.name = x := by
  unfold Decl.storage at h
  split at h
  · cases h
  · split at h
    · next hb => exact ⟨hb, Storage.param.inj h⟩
    · cases h

theorem Decl.storage_ne_const (d : Decl) (x : String) : d.storage ≠ .const x := by
  unfold Decl.storage
  split
  · exact Storage.noConfusion
  · split <;> exact Storage.noConfusion

/-- No write is of borrowed storage, and no kernel lists the name of a borrowed parameter. -/
def borrowRule (X : Context) (f : Callable) : Rule X where
  good _ s := ¬ f.Foreign X s
  fan k := ∀ w ∈ k.writes, f.borrows w = false
  other _ h := h
  direct ks d hlen hfan hpass hf := by
    cases hs : d.storage with
    | param x =>
      rw [hs] at hf
      obtain ⟨hb, rfl⟩ := Decl.storage_param hs
      obtain ⟨k, hk, hw⟩ := exists_of_colIsDeclaredWrite hlen (hpass.borrowed hb)
      exact absurd hf (Bool.eq_false_iff.mp (hfan k hk _ hw))
    | const x => exact absurd hs (d.storage_ne_const x)
    | column x =>
      rw [hs] at hf
      exact hf
    | other =>
      rw [hs] at hf
      exact hf

/-- No name that the body makes a view of borrowed storage is written through, no out-target or
in-out argument is borrowed storage, no kernel of the body lists a borrowed parameter, kernels are
nested at most 16 deep and no increment declares a variable. -/
def Callable.Unaliased (X : Context) (f : Callable) : Prop :=
  SparesAll (borrowRule X f) (aliasesAll f.body) [] f.body

theorem Callable.entry_inv (f : Callable) (A : List (String × Views.Expr)) :
    Inv A f.decls f.entry := by
  refine ⟨?_, fun v hv => ?_⟩
  · rw [Callable.entry, List.map_map]
    exact List.map_id f.decls
  · obtain ⟨d, -, rfl⟩ := List.mem_map.mp hv
    exact .inr (.inl rfl)

/-- No path of an accepted body writes borrowed storage. -/
theorem borrowed_unwritten {X : Context} {f : Callable} {t : List Event} (hacc : f.Accepted X)
    (hspare : f.Unaliased X) (hrun : f.Runs X t) : f.Keeps X t := by
  obtain ⟨o, r, hrun⟩ := hrun
  have hclean : Clean X [] (analyzeStmts X [] false f.decls f.body) := ⟨hacc, fun _ _ => trivial⟩
  have hsound := execAll_sound (R := borrowRule X f) f.body (Nat.zero_le _)
    (fun _ hk => absurd hk List.not_mem_nil) hclean hspare
    (List.Subset.refl _)
  obtain ⟨hgood, -⟩ := hsound f.entry o r t (f.entry_inv _) hrun fun _ _ => trivial
  intro ks s hs
  exact hgood _ hs

/-! ## Instances -/

/-- `{ s := p[0:2]; s[0] = e; return 0; }` -/
def writeThroughSlice (p : String) (e : Views.Expr) : List Stmt :=
  [.bind "s" .slice false (some (.slice (.name p))), .assign (.elem (.name "s")) e, .ret]

/-- The slice is a view of what `p` is, and it is written. -/
theorem writeThroughSlice_run {X : Context} {p : String} {e : Views.Expr} {r : List Var} {v : Var}
    (hv : findVar p r = some v) :
    ∃ o r', ExecAll X [] (writeThroughSlice p e) r o r' [.wrote [] v.storage] := by
  have hbind : Denotes X r (.slice (.name p)) v.storage := by
    simp only [Denotes, hv]
    exact .inr rfl
  let s : Var := ⟨Decl.local "s" .slice (taint (r.map Var.decl) "s" .slice false
    (some (.slice (.name p)))), v.storage⟩
  have helem : Denotes X (s :: r) (.name "s") v.storage := by
    simp only [Denotes]
    exact .inr rfl
  have hret : Path.leave Outcome.returned (s :: r) .returned (s :: r) ([] : List Event) :=
    ⟨rfl, rfl, rfl⟩
  have hassign : Exec X [] (.assign (.elem (.name "s")) e) (s :: r) .normal (s :: r)
      [.wrote [] v.storage] :=
    ⟨v.storage, [], _, ⟨helem, rfl⟩, ⟨rfl, rfl, rfl⟩, rfl⟩
  have hbind : Exec X [] (.bind "s" .slice false (some (.slice (.name p)))) r .normal (s :: r) [] :=
    ⟨v.storage, [], [], ⟨hbind, rfl⟩, ⟨rfl, rfl, rfl⟩, rfl⟩
  exact ⟨.returned, s :: r, Path.seq_run hbind (Path.seq_run hassign
    (Path.seq_out Outcome.noConfusion hret))⟩

/-- `fill :: func(xs: []int, own buf: []int) -> int { s := buf[0:2]; s[0] = xs[0]; return 0; }` -/
def fillOwned : Callable where
  params := [⟨"xs", .slice, false⟩, ⟨"buf", .slice, true⟩]
  outs := []
  body := writeThroughSlice "buf" (.index .other (.name "xs"))

theorem fillOwned_aliases {s : Storage} (h : Aliases (aliasesAll fillOwned.body) "s" s) :
    s.home? = some "buf" := by
  obtain ⟨home, hhome, h⟩ := h
  have hgives {x y : String} (h : Gives (aliasesAll fillOwned.body) x y) : y = "buf" := by
    obtain ⟨e, he, hy⟩ := h
    obtain ⟨rfl, rfl⟩ : x = "s" ∧ e = .slice (.name "buf") := by
      simpa [fillOwned, writeThroughSlice, aliasesAll, aliases] using he
    simpa [viewed] using hy
  have hend : home = "buf" := by
    cases h with
    | single h => exact hgives h
    | tail _ h => exact hgives h
  rw [hhome, hend]

/-- A slice of an `own` parameter may be written through. -/
theorem fillOwned_keeps : fillOwned.Keeps Context.plain [.wrote [] .other] := by
  refine borrowed_unwritten (f := fillOwned) (fun d => ?_) ⟨trivial, ?_, trivial, trivial⟩
    (writeThroughSlice_run (v := ⟨⟨"buf", .slice, true, true, false, false, false, false⟩, .other⟩)
      rfl)
  · have hnil : analyzeStmts Context.plain [] false fillOwned.decls fillOwned.body = [] := by decide
    rw [hnil]
    exact List.not_mem_nil
  · intro s hs hf
    have hhome := fillOwned_aliases hs
    cases s with
    | param x =>
      cases hhome
      exact absurd hf (by decide : fillOwned.borrows "buf" ≠ true)
    | const x => exact absurd hf Bool.false_ne_true
    | column x => exact hf
    | other => exact hf

/-- `poke :: func(xs: []int) -> int { s := xs[0:2]; s[0] = 9; return 0; }` -/
def poke : Callable where
  params := [⟨"xs", .slice, false⟩]
  outs := []
  body := writeThroughSlice "xs" .external

/-- A local slice of a borrowed parameter is not flagged, and writes it. -/
theorem not_borrowed_unwritten :
    ¬∀ X f t, Callable.Accepted X f → f.Runs X t → f.Keeps X t := by
  intro h
  have hacc : poke.Accepted Context.plain := by
    intro d
    have hnil : analyzeStmts Context.plain [] false poke.decls poke.body = [] := by decide
    rw [hnil]
    exact List.not_mem_nil
  have hrun : poke.Runs Context.plain [.wrote [] (.param "xs")] :=
    writeThroughSlice_run
      (v := ⟨⟨"xs", .slice, true, false, false, false, false, false⟩, .param "xs"⟩) rfl
  exact h Context.plain poke _ hacc hrun [] _ List.mem_cons_self rfl

end Arche.Semantic.Writes
