import Arche.Codegen.FailurePolicy
import Arche.Codegen.PoolCapacity

/-!
# Overflow handlers of an insert

`cg_emit_insert_mb` inlines the handler of an insert at the call, over
`(count, cap, ok, slot)` with `ok` at `1` and `slot` at `count`. The helper is
called afterwards, with the slot as a victim if the handler kept `ok` and moved
the slot, and with `-1` if not; `reject` is no code and `-1`.

The handler sees the high-water `count` and not the stack of free slots, a
cleared `ok` only takes the victim away, and nothing looks at the victim.
`handler_contract_iff` says in which states, and for which results of a handler,
an insert does what its handler asks; `not_handlersExact` is a pool with a free
row on which `abort` exits.
-/

namespace Arche.Codegen

open Arche.Lib FailurePolicy

variable {ρ : Type} {cap : Nat}

/-- What a handler leaves in `ok` and `slot`, or how it ends the program, from `(count, cap, ok,
slot)`. -/
abbrev Handler := Int → Int → Int → Int → Except Stop (Int × Int)

/-- The pool policy `abort` has two parameters, so `ok` and `slot` come back as they went in. -/
def abortHandler : Handler := fun count cap ok slot => do
  -- no pool policy of core divides
  let _ ← emitPolicyInline (fun _ _ => .error .undefined) poolAbortBody [count, cap]
  return (ok, slot)

/-- The victim that is passed to the helper. -/
def evictSlot (count : Int) (r : Int × Int) : Int :=
  if r.1 ≠ 0 ∧ r.2 ≠ count then r.2 else -1

/-- `cg_emit_insert_mb` with a handler other than `reject`. -/
def insertWith (h : Handler) (p : Pool ρ cap) (row : ρ) : Except Stop (Option (Outcome ρ cap)) := do
  let count := i32 p.count
  let r ← h count cap 1 count
  return archeInsert p row (evictSlot count r)

/-- With `reject`. -/
def insertReject (p : Pool ρ cap) (row : ρ) : Option (Outcome ρ cap) := archeInsert p row (-1)

/-- `abort` exits exactly when `reject` refuses. -/
def AbortContract (p : Pool ρ cap) (row : ρ) : Prop :=
  insertWith abortHandler p row = .error .exited ↔ ∃ o, insertReject p row = some o ∧ o.ok = false

/-- What an insert owes to a handler that came to a result: nothing is inserted when `ok` was
cleared, the insert is that of `reject` when the slot was left alone, and it writes to rows of the
pool only. -/
def Honours (h : Handler) (p : Pool ρ cap) (row : ρ) : Prop :=
  ∀ r, h p.count cap 1 p.count = .ok r → ∃ out, insertWith h p row = .ok out ∧
    (r.1 = 0 → ∃ o, out = some o ∧ o.ok = false ∧ o.pool = p) ∧
    (r.1 ≠ 0 → r.2 = p.count → out = insertReject p row) ∧
    ∃ o, out = some o ∧ ∀ slot, o.slot = some slot → 0 ≤ slot ∧ slot < cap

/-- No row is free: neither above `count` nor on the stack. -/
def Pool.Full (p : Pool ρ cap) : Prop := cap ≤ p.count ∧ p.freeCount ≤ 1

/-- A handler clears `ok` only on a full pool, and there moves the slot only to a row. -/
def Handler.Careful (h : Handler) (p : Pool ρ cap) : Prop :=
  ∀ r, h p.count cap 1 p.count = .ok r →
    (r.1 = 0 → p.Full) ∧ (r.1 ≠ 0 → p.Full → r.2 < cap ∨ r.2 = p.count)

namespace HandlerLemmas

theorem abortHandler_eq {count cap : Int} (ok slot : Int) (h₁ : i32 count = count)
    (h₂ : i32 cap = cap) :
    abortHandler count cap ok slot = if cap ≤ count then .error .exited else .ok (ok, slot) := by
  by_cases h : cap ≤ count <;>
    simp [abortHandler, emitPolicyInline, poolAbortBody, execAll, PStmt.exec, PCond.eval,
      PExpr.eval, bind, Except.bind, pure, Except.pure, h, h₁, h₂]

/-! ## The helper on a full pool and on any other -/

theorem chooseSlot_full {p : Pool ρ cap} (hf : p.Full) {ev : Int} :
    chooseSlot p ev = if ev ≥ 0 then some (some ⟨p, ev, false, true, []⟩) else some none := by
  have hfree : ¬ p.freeCount > 1 := by
    have := hf.2
    omega
  rw [chooseSlot, if_neg hfree, if_pos hf.1]

theorem archeInsert_full {p : Pool ρ cap} (hf : p.Full) (row : ρ) {ev : Int} (hev : ev < 0) :
    archeInsert p row ev = some ⟨p, 0#64, false, none, false, [], false⟩ := by
  rw [archeInsert, chooseSlot_full hf, if_neg (by omega)]

theorem archeInsert_wild {p : Pool ρ cap} (hf : p.Full) (row : ρ) {ev : Int} (hev : cap ≤ ev) :
    archeInsert p row ev = none := by
  have hwild : ¬ (0 ≤ ev ∧ ev < cap) := by omega
  rw [archeInsert, chooseSlot_full hf, if_pos (by omega)]
  simp [Pool.writeFields, hwild]

/-- A free row is taken before the victim is looked at. -/
theorem archeInsert_not_full {p : Pool ρ cap} (hf : ¬ p.Full) (row : ρ) (ev ev' : Int) :
    archeInsert p row ev = archeInsert p row ev' := by
  have hchoose : chooseSlot p ev = chooseSlot p ev' := by
    by_cases hfree : p.freeCount > 1
    · rw [chooseSlot, chooseSlot, if_pos hfree, if_pos hfree]
    · have hroom : ¬ p.count ≥ cap := fun h => hf ⟨h, by omega⟩
      rw [chooseSlot, chooseSlot, if_neg hfree, if_neg hfree, if_neg hroom, if_neg hroom]
  rw [archeInsert, archeInsert, hchoose]

theorem archeInsert_slot {p : Pool ρ cap} {row : ρ} {ev : Int} {o : Outcome ρ cap}
    (h : archeInsert p row ev = some o) {slot : Int} (hs : o.slot = some slot) :
    0 ≤ slot ∧ slot < cap := by
  unfold archeInsert at h
  split at h
  · cases h
  · cases h
    cases hs
  · split at h
    · cases h
    · next c _ p1 hwrite =>
      dsimp only at h
      split at h
      · cases h
      · cases h
        cases hs
        unfold Pool.writeFields at hwrite
        split at hwrite
        · assumption
        · cases hwrite

section States

variable {s : Sys ρ cap}

theorem i32_count (hg : Good s) (hword : cap < 2 ^ 31) : i32 s.pool.count = s.pool.count :=
  i32_of_mem (by have := hg.rep.count_nonneg; omega) (by have := hg.rep.count_le; omega)

theorem insertReject_refuses_iff (p : Pool ρ cap) (row : ρ) :
    (∃ o, insertReject p row = some o ∧ o.ok = false) ↔ p.Full := by
  constructor
  · rintro ⟨o, ho, hok⟩
    have hiff := CapacityLemmas.archeInsert_ok ho
    rw [hok] at hiff
    have hnot : ¬ (1 < p.freeCount ∨ p.count < cap) := fun h => by
      cases hiff.mpr h
    exact ⟨by omega, by omega⟩
  · intro hf
    exact ⟨_, archeInsert_full hf row (by decide), rfl⟩

theorem abortContract_iff (hg : Good s) (hword : cap < 2 ^ 31) (row : ρ) :
    AbortContract s.pool row ↔ ¬ (s.pool.count = cap ∧ 1 < s.pool.freeCount) := by
  have hi := i32_count hg hword
  have hcap32 : i32 cap = cap := i32_of_mem (by omega) (by omega)
  have hle := hg.rep.count_le
  have hexit : insertWith abortHandler s.pool row = .error .exited ↔ (cap : Int) ≤ s.pool.count := by
    rw [insertWith, hi]
    simp only [abortHandler_eq 1 s.pool.count hi hcap32]
    by_cases h : (cap : Int) ≤ s.pool.count
    · simp [h, bind, Except.bind]
    · simp [h, bind, Except.bind, pure, Except.pure]
  rw [AbortContract, hexit, insertReject_refuses_iff, Pool.Full]
  omega

theorem insert_in_range (hg : Good s) (hcap : 1 ≤ cap) (hword : cap < 2 ^ 31) (row : ρ) {ev : Int}
    (hev : ¬ s.pool.Full ∨ ev < cap) :
    ∃ o, archeInsert s.pool row ev = some o ∧ ∀ slot, o.slot = some slot → 0 ≤ slot ∧ slot < cap := by
  have hsome {ev : Int} (h : ev = -1 ∨ (0 ≤ ev ∧ ev < cap)) :
      ∃ o, archeInsert s.pool row ev = some o := by
    obtain ⟨o, ho, -⟩ := (PoolLemmas.insert_good hg hcap hword row h).1
    exact ⟨o, ho⟩
  have hret : ∃ o, archeInsert s.pool row ev = some o := by
    by_cases hf : s.pool.Full
    · by_cases h0 : 0 ≤ ev
      · exact hsome (.inr ⟨h0, hev.resolve_left (not_not_intro hf)⟩)
      · exact ⟨_, archeInsert_full hf row (by omega)⟩
    · rw [archeInsert_not_full hf row ev (-1)]
      exact hsome (.inl rfl)
  obtain ⟨o, ho⟩ := hret
  exact ⟨o, ho, fun slot hs => archeInsert_slot ho hs⟩

theorem insertWith_eq (hg : Good s) (hword : cap < 2 ^ 31) (row : ρ) {h : Handler} {r : Int × Int}
    (hr : h s.pool.count cap 1 s.pool.count = .ok r) :
    insertWith h s.pool row = .ok (archeInsert s.pool row (evictSlot s.pool.count r)) := by
  rw [insertWith, i32_count hg hword]
  simp only [hr]
  rfl

theorem honours_iff (hg : Good s) (hcap : 1 ≤ cap) (hword : cap < 2 ^ 31) (h : Handler) (row : ρ) :
    Honours h s.pool row ↔ h.Careful s.pool := by
  refine forall₂_congr fun r hr => ?_
  rw [insertWith_eq hg hword row hr]
  constructor
  · rintro ⟨_, ⟨⟩, hzero, -, o, ho, -⟩
    refine ⟨fun h0 => ?_, fun hne hf => ?_⟩
    · obtain ⟨o', ho', hok, -⟩ := hzero h0
      rw [evictSlot, if_neg fun hc => hc.1 h0] at ho'
      exact (insertReject_refuses_iff s.pool row).mp ⟨o', ho', hok⟩
    · by_contra hout
      rw [not_or] at hout
      rw [evictSlot, if_pos ⟨hne, hout.2⟩, archeInsert_wild hf row (by omega)] at ho
      cases ho
  · rintro ⟨hzero, hvictim⟩
    refine ⟨_, rfl, ?_, ?_, ?_⟩
    · intro h0
      rw [evictSlot, if_neg fun hc => hc.1 h0]
      exact ⟨_, archeInsert_full (hzero h0) row (by decide), rfl, rfl⟩
    · intro _ halone
      rw [evictSlot, if_neg fun hc => hc.2 halone]
      rfl
    · refine insert_in_range hg hcap hword row ?_
      by_cases hf : s.pool.Full
      · refine .inr ?_
        rw [evictSlot]
        split
        · next hmoved => exact (hvictim hmoved.1 hf).resolve_right hmoved.2
        · omega
      · exact .inl hf

end States

end HandlerLemmas

/-- In every state a run of inserts and deletes reaches: `abort` acts exactly on overflow unless a
freed row is waiting while `count` is at `cap`, and an insert honours a handler exactly if the
handler is careful. -/
theorem handler_contract_iff (hcap : 1 ≤ cap) (hword : cap < 2 ^ 31) (zero : ρ) (length : Int)
    (h0 : 0 ≤ length) (h1 : length ≤ cap) {ops : List (Op ρ)} {s : Sys ρ cap}
    (hrun : Run (Guarded Sys.Step SpareCell) (Sys.start cap zero length) ops s) (row : ρ) :
    (AbortContract s.pool row ↔ ¬ (s.pool.count = cap ∧ 1 < s.pool.freeCount)) ∧
    ∀ h : Handler, Honours h s.pool row ↔ h.Careful s.pool := by
  have hg : Good s := PoolLemmas.run_good hcap hword h0 h1 hrun
  exact ⟨HandlerLemmas.abortContract_iff hg hword row,
    fun h => HandlerLemmas.honours_iff hg hcap hword h row⟩

/-- The pool of two rows with the first one freed: `reject` has a row to give, and a handler that
keeps `ok` and the slot gets it. -/
theorem handler_contract_two : Honours (fun _ _ ok slot => .ok (ok, slot)) exTwoRows.pool () := by
  refine ((handler_contract_iff (by decide) (by decide) () 0 (by decide) (by decide) exTwoRows_run
    ()).2 _).mpr ?_
  rintro r hr
  cases hr
  exact ⟨fun h => absurd h (by decide), fun _ _ => .inr rfl⟩

/-- What inserts are meant to do with their handlers along every run. -/
def HandlersExact : Prop :=
  ∀ (cap : Nat), 1 ≤ cap → cap < 2 ^ 31 → ∀ (length : Int), 0 ≤ length → length ≤ cap →
    ∀ (ops : List (Op Unit)) (s : Sys Unit cap), Run Sys.Step (Sys.start cap () length) ops s →
      AbortContract s.pool () ∧ ∀ h : Handler, Honours h s.pool ()

/-- Two rows, the first of them deleted: `abort` exits on the next insert, `reject` accepts it. -/
theorem not_handlersExact : ¬ HandlersExact := by
  intro h
  have habort := (h 2 (by decide) (by decide) 0 (by decide) (by decide) _ _
    exTwoRows_run.of_guarded).1
  have hexit : insertWith abortHandler exTwoRows.pool () = .error .exited := rfl
  obtain ⟨o, ho, hok⟩ := habort.mp hexit
  cases ho
  cases hok

end Arche.Codegen
