import Mathlib.Data.List.Basic
import Mathlib.Tactic.Common

/-!
# Stacks of scopes

A name is found in the innermost scope that declares it. `hide p` leaves out the names that `p` does
not allow: what is done to allowed names is the same before and after it, and what is done to the
others does not show.

* `All P`: every name that is declared, with its value, keeps to `P`.
-/

namespace Arche.Lib

/-- The scopes that are open, of which the innermost is always there. -/
structure Scopes (κ ν : Type) where
  inner : List (κ × ν)
  outer : List (List (κ × ν))
deriving DecidableEq, Repr

namespace Scopes

variable {κ ν : Type}

section Operations

variable [DecidableEq κ]

def lookup (s : Scopes κ ν) (k : κ) : Option ν := (s.inner :: s.outer).findSome? (List.lookup k)

def declare (s : Scopes κ ν) (k : κ) (v : ν) : Scopes κ ν := { s with inner := (k, v) :: s.inner }

/-- The value of `k` in one scope, where it is declared last. -/
def replace (k : κ) (v : ν) : List (κ × ν) → List (κ × ν)
  | [] => []
  | e :: es => if e.1 = k then (k, v) :: es else e :: replace k v es

/-- A new value in the first of the scopes that declares the name. -/
def setIn (k : κ) (v : ν) : List (List (κ × ν)) → List (List (κ × ν))
  | [] => []
  | es :: ess => if k ∈ es.map Prod.fst then replace k v es :: ess else es :: setIn k v ess

def set (s : Scopes κ ν) (k : κ) (v : ν) : Scopes κ ν :=
  if k ∈ s.inner.map Prod.fst then { s with inner := replace k v s.inner }
  else { s with outer := setIn k v s.outer }

end Operations

def enter (s : Scopes κ ν) : Scopes κ ν := ⟨[], s.inner :: s.outer⟩

/-- The outermost scope stays open. -/
def leave (s : Scopes κ ν) : Scopes κ ν :=
  match s.outer with
  | [] => s
  | es :: ess => ⟨es, ess⟩

def hideIn (p : κ → Bool) (es : List (κ × ν)) : List (κ × ν) := es.filter fun e => p e.1

def hide (p : κ → Bool) (s : Scopes κ ν) : Scopes κ ν := ⟨hideIn p s.inner, s.outer.map (hideIn p)⟩

variable {p : κ → Bool} {k : κ} {v : ν}

/-! ## What is left out does not show -/

theorem hideIn_cons (hk : p k = true) (v : ν) (es : List (κ × ν)) :
    hideIn p ((k, v) :: es) = (k, v) :: hideIn p es := List.filter_cons_of_pos hk

theorem hideIn_cons_of_hidden (hk : p k = false) (v : ν) (es : List (κ × ν)) :
    hideIn p ((k, v) :: es) = hideIn p es :=
  List.filter_cons_of_neg (show ¬p k = true by rw [hk]; exact Bool.false_ne_true)

theorem mem_keys_hideIn (hk : p k = true) (es : List (κ × ν)) :
    k ∈ (hideIn p es).map Prod.fst ↔ k ∈ es.map Prod.fst := by
  simp only [hideIn, List.mem_map, List.mem_filter]
  constructor
  · rintro ⟨e, ⟨he, -⟩, rfl⟩
    exact ⟨e, he, rfl⟩
  · rintro ⟨e, he, rfl⟩
    exact ⟨e, ⟨he, hk⟩, rfl⟩

theorem hide_enter (s : Scopes κ ν) : s.enter.hide p = (s.hide p).enter := rfl

theorem hide_leave (s : Scopes κ ν) : s.leave.hide p = (s.hide p).leave := by
  obtain ⟨inner, outer⟩ := s
  cases outer with
  | nil => rfl
  | cons es ess => rfl

theorem hide_declare (hk : p k = true) (s : Scopes κ ν) :
    (s.declare k v).hide p = (s.hide p).declare k v := by
  simp only [hide, declare, hideIn_cons hk]

theorem hide_declare_of_hidden (hk : p k = false) (s : Scopes κ ν) :
    (s.declare k v).hide p = s.hide p := by
  simp only [hide, declare, hideIn_cons_of_hidden hk]

/-- What fewer names show. -/
theorem hide_mono {q : κ → Bool} (hpq : ∀ k, p k = true → q k = true) {s t : Scopes κ ν}
    (h : s.hide q = t.hide q) : s.hide p = t.hide p := by
  have hin : ∀ es : List (κ × ν), hideIn p (hideIn q es) = hideIn p es := by
    intro es
    rw [hideIn, hideIn, List.filter_filter]
    refine List.filter_congr fun e _ => ?_
    cases hp : p e.1 with
    | true => rw [hpq _ hp]; rfl
    | false => rfl
  have htwo : ∀ s : Scopes κ ν, (s.hide q).hide p = s.hide p := by
    intro s
    simp only [hide, List.map_map, hin]
    exact congrArg _ (List.map_congr_left fun es _ => hin es)
  rw [← htwo s, h, htwo]

section All

/-- What is declared keeps to `P`. -/
def All (P : κ → ν → Prop) (s : Scopes κ ν) : Prop := ∀ es ∈ s.inner :: s.outer, ∀ e ∈ es, P e.1 e.2

variable {P : κ → ν → Prop} {s : Scopes κ ν}

theorem All.declare (h : s.All P) (hk : P k v) : (s.declare k v).All P := by
  obtain ⟨hinner, houter⟩ := List.forall_mem_cons.mp h
  exact List.forall_mem_cons.mpr ⟨List.forall_mem_cons.mpr ⟨hk, hinner⟩, houter⟩

theorem All.enter (h : s.All P) : s.enter.All P :=
  List.forall_mem_cons.mpr ⟨fun _ he => absurd he List.not_mem_nil, h⟩

theorem All.leave (h : s.All P) : s.leave.All P := by
  obtain ⟨inner, outer⟩ := s
  cases outer with
  | nil => exact h
  | cons es ess => exact fun es' hes' => h es' (List.mem_cons_of_mem _ hes')

variable [DecidableEq κ]

theorem All.lookup (h : s.All P) (hv : s.lookup k = some v) : P k v := by
  obtain ⟨es, hes, hlook⟩ := List.exists_of_findSome?_eq_some hv
  have hmem : (k, v) ∈ es := by
    obtain ⟨before, after, rfl, -⟩ := List.lookup_eq_some_iff.mp hlook
    exact List.mem_append_right _ List.mem_cons_self
  exact h es hes _ hmem

theorem forall_replace {es : List (κ × ν)} (h : ∀ e ∈ es, P e.1 e.2) (hk : P k v) :
    ∀ e ∈ replace k v es, P e.1 e.2 := by
  induction es with
  | nil => exact h
  | cons e es ih =>
    obtain ⟨he, hes⟩ := List.forall_mem_cons.mp h
    rw [replace]
    split
    · exact List.forall_mem_cons.mpr ⟨hk, hes⟩
    · exact List.forall_mem_cons.mpr ⟨he, ih hes⟩

theorem All.set (h : s.All P) (hk : P k v) : (s.set k v).All P := by
  have hsetIn : ∀ ess : List (List (κ × ν)), (∀ es ∈ ess, ∀ e ∈ es, P e.1 e.2) →
      ∀ es ∈ setIn k v ess, ∀ e ∈ es, P e.1 e.2 := by
    intro ess
    induction ess with
    | nil => exact fun h => h
    | cons es ess ih =>
      intro hess
      obtain ⟨hes, hess⟩ := List.forall_mem_cons.mp hess
      rw [setIn]
      split
      · exact List.forall_mem_cons.mpr ⟨forall_replace hes hk, hess⟩
      · exact List.forall_mem_cons.mpr ⟨hes, ih hess⟩
  obtain ⟨hinner, houter⟩ := List.forall_mem_cons.mp h
  unfold Scopes.set
  split
  · exact List.forall_mem_cons.mpr ⟨forall_replace hinner hk, houter⟩
  · exact List.forall_mem_cons.mpr ⟨hinner, hsetIn s.outer houter⟩

end All

section Lookup

variable [DecidableEq κ]

theorem lookup_declare (s : Scopes κ ν) (k : κ) (v : ν) : (s.declare k v).lookup k = some v := by
  rw [lookup, declare, List.findSome?_cons, List.lookup_cons, beq_self_eq_true]

theorem lookup_hideIn (hk : p k = true) (es : List (κ × ν)) :
    (hideIn p es).lookup k = es.lookup k := by
  induction es with
  | nil => rfl
  | cons e es ih =>
    obtain ⟨k', v'⟩ := e
    cases hp : p k' with
    | true => rw [hideIn_cons hp, List.lookup_cons, List.lookup_cons, ih]
    | false =>
      have hne : (k == k') = false := beq_eq_false_iff_ne.mpr fun heq => by simp_all
      rw [hideIn_cons_of_hidden hp, List.lookup_cons, hne, ih]

theorem hideIn_replace (hk : p k = true) (es : List (κ × ν)) :
    hideIn p (replace k v es) = replace k v (hideIn p es) := by
  induction es with
  | nil => rfl
  | cons e es ih =>
    obtain ⟨k', v'⟩ := e
    rw [replace]
    split
    next heq =>
      cases heq
      rw [hideIn_cons hk, hideIn_cons hk, replace, if_pos rfl]
    next hne =>
      cases hp : p k' with
      | true => rw [hideIn_cons hp, hideIn_cons hp, replace, if_neg hne, ih]
      | false => rw [hideIn_cons_of_hidden hp, hideIn_cons_of_hidden hp, ih]

theorem setIn_hide (hk : p k = true) (ess : List (List (κ × ν))) :
    (setIn k v ess).map (hideIn p) = setIn k v (ess.map (hideIn p)) := by
  induction ess with
  | nil => rfl
  | cons es ess ih =>
    rw [setIn, List.map_cons, setIn]
    by_cases hmem : k ∈ es.map Prod.fst
    · rw [if_pos hmem, if_pos ((mem_keys_hideIn hk es).mpr hmem), List.map_cons, hideIn_replace hk]
    · rw [if_neg hmem, if_neg fun h => hmem ((mem_keys_hideIn hk es).mp h), List.map_cons, ih]

theorem lookup_hide (hk : p k = true) (s : Scopes κ ν) : (s.hide p).lookup k = s.lookup k := by
  have hall : ∀ ess : List (List (κ × ν)),
      (ess.map (hideIn p)).findSome? (List.lookup k) = ess.findSome? (List.lookup k) := by
    intro ess
    induction ess with
    | nil => rfl
    | cons es ess ih =>
      rw [List.map_cons, List.findSome?_cons, List.findSome?_cons, lookup_hideIn hk, ih]
  exact hall (s.inner :: s.outer)

/-- Two stacks that show the same find the same under an allowed name. -/
theorem lookup_congr {s t : Scopes κ ν} (h : s.hide p = t.hide p) (hk : p k = true) :
    s.lookup k = t.lookup k := by
  rw [← lookup_hide hk s, h, lookup_hide hk]

theorem hide_set (hk : p k = true) (s : Scopes κ ν) : (s.set k v).hide p = (s.hide p).set k v := by
  unfold set
  by_cases hmem : k ∈ s.inner.map Prod.fst
  · have hmem' := (mem_keys_hideIn hk s.inner).mpr hmem
    rw [if_pos hmem, if_pos (show k ∈ (s.hide p).inner.map Prod.fst from hmem'), hide, hide,
      hideIn_replace hk]
  · have hmem' := fun h => hmem ((mem_keys_hideIn hk s.inner).mp h)
    rw [if_neg hmem, if_neg (show k ∉ (s.hide p).inner.map Prod.fst from hmem'), hide, hide,
      setIn_hide hk]

end Lookup

end Scopes

end Arche.Lib
