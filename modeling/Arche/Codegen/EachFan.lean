import Arche.Codegen.HandleIdentity

/-!
# The rows an `each` fan visits

`codegen_each_fan` loads `count` once and then goes over the slots below it, and for each
slot looks at its generation when its turn has come. The body may insert into the pool and
delete from it. Rows that are appended are behind the count that was loaded; a row that an
insert puts in a hole, or in the place of an evicted row, may be ahead of the cursor.

1. `each_fan_visits`: if no insert of the body takes a slot that is still to come, the rows
   visited are those that were live at the start and not removed before their turn.
2. `not_each_fan_visits`: a body that fills a hole ahead of the cursor has its row visited.
-/

namespace Arche.Codegen

open Arche.Lib PoolLemmas CapacityLemmas

variable {ρ : Type} {cap : Nat}

/-! ## The loop -/

/-- A row by where it comes from: it was in its slot at the start, or is the `k`-th that the body
inserted. -/
inductive FanRow where
  | start (slot : Int)
  | inserted (k : Nat)
deriving DecidableEq

/-- The loop with `%count`, `%row` and, while the body runs, the handle it has for the row. The other
fields are a history: the row in a slot, the number of rows the body inserted, the slots whose first row
was removed before its turn, and the rows visited. -/
structure Fan (ρ : Type) (cap : Nat) where
  pool : Pool ρ cap
  count : Int
  row : Nat
  handle : Option (BitVec 64)
  occupant : Int → Option FanRow
  inserts : Nat
  gone : List Int
  visited : List (Option FanRow)

/-- `head` is one pass through `eachrow_head`, `next` is `eachrow_cont` after a body. -/
inductive FanOp (ρ : Type) where
  | head
  | insert (row : ρ) (evictSlot : Int)
  | delete (handle : BitVec 64)
  | assign (slot : Int) (row : ρ)
  | next

def Fan.start (p : Pool ρ cap) : Fan ρ cap where
  pool := p
  count := p.count
  row := 0
  handle := none
  occupant := fun t => if 0 ≤ t ∧ t < p.count ∧ p.deadRow t.toNat = false then some (.start t) else none
  inserts := 0
  gone := []
  visited := []

/-- The row of `slot` is removed. -/
def Fan.remove (s : Fan ρ cap) (slot : Int) : List Int :=
  if s.occupant slot = some (.start slot) ∧ (s.row : Int) < slot then slot :: s.gone else s.gone

/-- The loop after an insert of the body. -/
def Fan.inserted (s : Fan ρ cap) (o : Outcome ρ cap) : Fan ρ cap :=
  match o.slot with
  | some slot =>
    { s with
      pool := o.pool
      occupant := Function.update s.occupant slot (some (.inserted s.inserts))
      inserts := s.inserts + 1
      gone := s.remove slot }
  | none => { s with pool := o.pool }

/-- The loop after a delete of the body. -/
def Fan.deleted (s : Fan ρ cap) (o : Outcome ρ cap) : Fan ρ cap :=
  match o.slot with
  | some slot =>
    { s with
      pool := o.pool
      occupant := Function.update s.occupant slot none
      gone := s.remove slot }
  | none => { s with pool := o.pool }

/-- One step of the loop. The handle of the row is made from the generation that was loaded for the
liveness test. -/
inductive Fan.Step : Fan ρ cap → FanOp ρ → Fan ρ cap → Prop
  | skip {s : Fan ρ cap} {g : BitVec 32} :
      s.handle = none → (s.row : Int) < s.count → s.pool.gen s.row = some g → dead g = true →
      Fan.Step s .head { s with row := s.row + 1 }
  | visit {s : Fan ρ cap} {g : BitVec 32} :
      s.handle = none → (s.row : Int) < s.count → s.pool.gen s.row = some g → dead g = false →
      Fan.Step s .head
        { s with handle := some (packHandle s.row g), visited := s.visited ++ [s.occupant s.row] }
  | insert {s : Fan ρ cap} {row : ρ} {ev : Int} {o : Outcome ρ cap} :
      s.handle.isSome → archeInsert s.pool row ev = some o → Fan.Step s (.insert row ev) (s.inserted o)
  | delete {s : Fan ρ cap} {h : BitVec 64} {o : Outcome ρ cap} :
      s.handle.isSome → archeDelete s.pool h = some o → o.aborted = false →
      Fan.Step s (.delete h) (s.deleted o)
  | assign {s : Fan ρ cap} {slot : Int} {row : ρ} {q : Pool ρ cap} :
      s.handle.isSome → s.pool.writeFields slot row = some q →
      Fan.Step s (.assign slot row) { s with pool := q }
  | next {s : Fan ρ cap} :
      s.handle.isSome → Fan.Step s .next { s with row := s.row + 1, handle := none }

/-! ## What the fan should do -/

/-- The number of slots whose turn has come. -/
def Fan.turn (s : Fan ρ cap) : Nat := if s.handle.isSome then s.row + 1 else s.row

/-- The slots below `n` whose rows were live at the start and not removed before their turn. -/
def Fan.due (p : Pool ρ cap) (s : Fan ρ cap) (n : Nat) : List Nat :=
  (List.range n).filter fun t => !p.deadRow t && decide ((t : Int) ∉ s.gone)

/-- What holds at every step of a fan over `p`: the rows visited so far are those that should be; a fan
that is at its end has come to every slot; a fan that is not goes on, and the handle of the row it
visits passes the check. -/
structure Fan.Exact (p : Pool ρ cap) (s : Fan ρ cap) : Prop where
  visited : s.visited = (s.due p s.turn).map fun (t : Nat) => some (.start t)
  finished : s.handle = none → s.count ≤ s.row → s.turn = p.count.toNat
  advances : p.count ≤ cap → s.handle = none → (s.row : Int) < s.count → ∃ t, s.Step .head t
  minted : ∀ t h, s.Step .head t → t.handle = some h → t.pool.Passes h ∧ handleSlot h = s.row

/-! ## The condition -/

/-- The slot is still to come. -/
def Fan.Ahead (s : Fan ρ cap) (slot : Int) : Prop := (s.row : Int) < slot ∧ slot < s.count

/-- An insert of the body takes no slot that is still to come, neither from the free list (which has
not run over) nor from a victim. -/
def Fan.Keeps (s : Fan ρ cap) : FanOp ρ → Prop
  | .insert _ ev =>
    if s.pool.freeCount > 1 then
      s.pool.freeCount ≤ cap ∧
        ∀ slot, s.pool.loadFree (s.pool.freeCount - 1) = some slot → ¬ s.Ahead slot
    else (cap : Int) ≤ s.pool.count → ¬ s.Ahead ev
  | _ => True

/-! ## The invariant -/

/-- What a run keeps. A slot that is still to come has its first row or none, and the rows that are
appended go behind the count that was loaded. -/
structure Fan.Sound (p : Pool ρ cap) (s : Fan ρ cap) : Prop where
  count : s.count = p.count ∧ s.count ≤ s.pool.count
  free : 0 ≤ s.pool.freeCount
  turn : s.turn ≤ p.count.toNat
  visited : s.visited = (s.due p s.turn).map fun (t : Nat) => some (.start t)
  ahead : ∀ t : Nat, s.turn ≤ t → (t : Int) < s.count →
    (s.pool.deadRow t = false ↔ p.deadRow t = false ∧ (t : Int) ∉ s.gone) ∧
    s.occupant t = if s.pool.deadRow t then none else some (.start t)

namespace FanLemmas

theorem deadRow_eq {p : Pool ρ cap} {t : Nat} {g : BitVec 32} (h : p.gen t = some g) :
    p.deadRow t = dead g := by
  unfold Pool.deadRow
  rw [h]

/-! ## The calls of the body -/

/-- The slot that an insert takes is not one that is still to come. -/
theorem not_ahead_of_keeps {s : Fan ρ cap} {row : ρ} {ev : Int} {c : Choice ρ cap}
    (hkeep : s.Keeps (.insert row ev)) (hcount : s.count ≤ s.pool.count)
    (h : chooseSlot s.pool ev = some (some c)) : ¬ s.Ahead c.slot := by
  simp only [Fan.Keeps] at hkeep
  unfold chooseSlot at h
  split at h
  · next hpop =>
    rw [if_pos hpop] at hkeep
    dsimp only at h
    split at h
    · cases h
    · next slot hload =>
      cases h
      exact hkeep.2 slot hload
  · next hpop =>
    rw [if_neg hpop] at hkeep
    split at h
    · next hfull =>
      split at h
      · cases h
        exact hkeep hfull
      · cases h
    · cases h
      rintro ⟨-, hlt⟩
      exact absurd hlt (not_lt.mpr hcount)

/-! ## One step -/

theorem due_succ (p : Pool ρ cap) (s : Fan ρ cap) (n : Nat) :
    s.due p (n + 1) = s.due p n ++ if p.deadRow n = false ∧ (n : Int) ∉ s.gone then [n] else [] := by
  unfold Fan.due
  rw [List.range_succ, List.filter_append]
  congr 1
  by_cases hn : p.deadRow n = false ∧ (n : Int) ∉ s.gone
  · rw [if_pos hn]
    simp [hn.1, hn.2]
  · rw [if_neg hn, List.filter_eq_nil_iff]
    intro t ht
    rw [List.mem_singleton] at ht
    subst ht
    simpa using hn

/-- A row that is removed was still to come, so the rows due up to now are the same. -/
theorem due_congr {p : Pool ρ cap} {s t : Fan ρ cap} {n : Nat}
    (h : ∀ i : Nat, i < n → ((i : Int) ∈ t.gone ↔ (i : Int) ∈ s.gone)) : t.due p n = s.due p n := by
  unfold Fan.due
  refine List.filter_congr fun i hi => ?_
  rw [List.mem_range] at hi
  rw [decide_eq_decide.mpr (not_congr (h i hi))]

theorem mem_remove {s : Fan ρ cap} {slot t : Int} :
    t ∈ s.remove slot ↔
      t ∈ s.gone ∨ (t = slot ∧ s.occupant slot = some (.start slot) ∧ (s.row : Int) < slot) := by
  unfold Fan.remove
  split
  · next h => simp [h, or_comm]
  · next h =>
    constructor
    · exact .inl
    · rintro (ht | ⟨-, hr⟩)
      · exact ht
      · exact absurd hr h

theorem turn_of_isSome {s : Fan ρ cap} (h : s.handle.isSome) : s.turn = s.row + 1 := if_pos h

theorem turn_of_none {s : Fan ρ cap} (h : s.handle = none) : s.turn = s.row := by
  unfold Fan.turn
  rw [h]
  exact if_neg (by decide)

/-- A call of the body that writes one slot: the slot is not still to come, or its row is removed. -/
theorem call_sound {p : Pool ρ cap} {s t : Fan ρ cap} (hs : s.Sound p) (hbody : s.handle.isSome)
    {slot : Int} {v : Option FanRow} (hrow : t.row = s.row) (hhandle : t.handle = s.handle)
    (hvisited : t.visited = s.visited) (hcount : t.count = s.count ∧ s.pool.count ≤ t.pool.count)
    (hfree : 0 ≤ t.pool.freeCount) (hocc : t.occupant = Function.update s.occupant slot v)
    (hgone : t.gone = s.remove slot) (hothers : ∀ i, i ≠ slot → t.pool.gen i = s.pool.gen i)
    (hslot : ¬ s.Ahead slot ∨ (v = none ∧ ∃ g, t.pool.gen slot = some g ∧ dead g = true)) :
    t.Sound p := by
  have hturn : s.turn = s.row + 1 := turn_of_isSome hbody
  have hturn' : t.turn = s.turn := by
    unfold Fan.turn
    rw [hrow, hhandle]
  refine ⟨⟨hcount.1.trans hs.count.1, ?_⟩, hfree, hturn' ▸ hs.turn, ?_, ?_⟩
  · rw [hcount.1]
    exact le_trans hs.count.2 hcount.2
  · have hdue : t.due p s.turn = s.due p s.turn := by
      refine due_congr fun i hi => ?_
      rw [hgone, mem_remove]
      constructor
      · rintro (hmem | ⟨rfl, -, hlt⟩)
        · exact hmem
        · omega
      · exact .inl
    rw [hvisited, hs.visited, hturn', hdue]
  · intro i hi hlt
    rw [hturn'] at hi
    rw [hcount.1] at hlt
    obtain ⟨hlive, hrow'⟩ := hs.ahead i hi hlt
    by_cases heq : (i : Int) = slot
    · -- the slot is still to come, so its row is removed
      subst heq
      have hahead : s.Ahead i := ⟨by omega, hlt⟩
      obtain ⟨rfl, g, hg, hdead⟩ := hslot.resolve_left (not_not.mpr hahead)
      have hdead' : t.pool.deadRow i = true := (deadRow_eq hg).trans hdead
      rw [hdead', hocc, Function.update_self, if_pos rfl]
      refine ⟨⟨nofun, fun ⟨hp, hmem⟩ => ?_⟩, rfl⟩
      rw [hgone, mem_remove, not_or] at hmem
      have halive := hlive.mpr ⟨hp, hmem.1⟩
      rw [halive, if_neg (by decide)] at hrow'
      exact absurd ⟨rfl, hrow', hahead.1⟩ hmem.2
    · have hsame : t.pool.deadRow i = s.pool.deadRow i := deadRow_congr (hothers i heq)
      have hmem : (i : Int) ∈ t.gone ↔ (i : Int) ∈ s.gone := by
        rw [hgone, mem_remove]
        exact ⟨fun h => h.resolve_right fun h => heq h.1, .inl⟩
      rw [hsame, hmem, hocc, Function.update_of_ne heq]
      exact ⟨hlive, hrow'⟩

/-- A call of the body that writes no generation. -/
theorem quiet_sound {p : Pool ρ cap} {s : Fan ρ cap} {q : Pool ρ cap} (hs : s.Sound p)
    (hgen : ∀ i, q.gen i = s.pool.gen i) (hcount : q.count = s.pool.count)
    (hfree : q.freeCount = s.pool.freeCount) : Fan.Sound p { s with pool := q } := by
  refine ⟨⟨hs.count.1, ?_⟩, ?_, hs.turn, hs.visited, fun i hi hlt => ?_⟩
  · show s.count ≤ q.count
    exact hcount ▸ hs.count.2
  · show 0 ≤ q.freeCount
    exact hfree ▸ hs.free
  · have hsame : q.deadRow i = s.pool.deadRow i := deadRow_congr (hgen i)
    show (q.deadRow i = false ↔ _) ∧ s.occupant i = if q.deadRow i then none else _
    rw [hsame]
    exact hs.ahead i hi hlt

theorem insert_sound {p : Pool ρ cap} {s : Fan ρ cap} (hs : s.Sound p) (hbody : s.handle.isSome)
    {row : ρ} {ev : Int} {o : Outcome ρ cap} (hkeep : s.Keeps (.insert row ev))
    (hins : archeInsert s.pool row ev = some o) : (s.inserted o).Sound p := by
  obtain ⟨hslot, hpool⟩ | ⟨c, hc, hslot, -, hcount, hfree, -, hothers⟩ := insert_outcome hins hs.free
  · rw [Fan.inserted, hslot]
    exact quiet_sound hs (fun i => by rw [hpool]) (by rw [hpool]) (by rw [hpool])
  · rw [Fan.inserted, hslot]
    have hgrow : s.pool.count ≤ o.pool.count := by omega
    have hnonneg : 0 ≤ o.pool.freeCount := hfree.1
    exact call_sound hs hbody rfl rfl rfl ⟨rfl, hgrow⟩ hnonneg rfl rfl hothers
      (.inl (not_ahead_of_keeps hkeep hs.count.2 hc))

theorem delete_sound {p : Pool ρ cap} {s : Fan ρ cap} (hs : s.Sound p) (hbody : s.handle.isSome)
    {h : BitVec 64} {o : Outcome ρ cap} (hdel : archeDelete s.pool h = some o)
    (hab : o.aborted = false) : (s.deleted o).Sound p := by
  obtain ⟨hslot, hpool⟩ | ⟨slot, g, hslot, hg, hdead, hcount, hfree, hothers⟩ :=
    delete_outcome hdel hab hs.free
  · rw [Fan.deleted, hslot]
    exact quiet_sound hs (fun i => by rw [hpool]) (by rw [hpool]) (by rw [hpool])
  · rw [Fan.deleted, hslot]
    exact call_sound hs hbody rfl rfl rfl ⟨rfl, le_of_eq hcount.symm⟩ (le_of_lt hfree) rfl rfl hothers
      (.inr ⟨rfl, g, hg, hdead⟩)

theorem assign_sound {p : Pool ρ cap} {s : Fan ρ cap} (hs : s.Sound p) {slot : Int} {row : ρ}
    {q : Pool ρ cap} (hwrite : s.pool.writeFields slot row = some q) :
    Fan.Sound p { s with pool := q } := by
  unfold Pool.writeFields at hwrite
  split at hwrite
  · cases hwrite
    exact quiet_sound hs (fun i => rfl) rfl rfl
  · cases hwrite

/-- The cursor comes to a slot: its row is one that is due exactly if it is live. -/
theorem cursor_live {p : Pool ρ cap} {s : Fan ρ cap} (hs : s.Sound p) (hnone : s.handle = none)
    (hlt : (s.row : Int) < s.count) {g : BitVec 32} (hg : s.pool.gen s.row = some g) :
    (dead g = false ↔ p.deadRow s.row = false ∧ (s.row : Int) ∉ s.gone) ∧
      s.occupant s.row = if dead g then none else some (.start s.row) := by
  have h := hs.ahead s.row (le_of_eq (turn_of_none hnone)) hlt
  rwa [deadRow_eq hg] at h

theorem skip_sound {p : Pool ρ cap} {s : Fan ρ cap} (hs : s.Sound p) (hnone : s.handle = none)
    (hlt : (s.row : Int) < s.count) {g : BitVec 32} (hg : s.pool.gen s.row = some g)
    (hdead : dead g = true) : Fan.Sound p { s with row := s.row + 1 } := by
  have hturn : s.turn = s.row := turn_of_none hnone
  have hturn' : Fan.turn { s with row := s.row + 1 } = s.row + 1 := turn_of_none hnone
  have hnot : ¬ (p.deadRow s.row = false ∧ (s.row : Int) ∉ s.gone) := by
    rw [← (cursor_live hs hnone hlt hg).1, hdead]
    decide
  refine ⟨hs.count, hs.free, ?_, ?_, fun i hi => hs.ahead i ?_⟩
  · have hcount := hs.count.1
    omega
  · rw [hturn']
    show s.visited = (s.due p (s.row + 1)).map _
    rw [due_succ, if_neg hnot, List.append_nil, hs.visited, hturn]
  · omega

theorem visit_sound {p : Pool ρ cap} {s : Fan ρ cap} (hs : s.Sound p) (hnone : s.handle = none)
    (hlt : (s.row : Int) < s.count) {g : BitVec 32} (hg : s.pool.gen s.row = some g)
    (halive : dead g = false) {h : BitVec 64} :
    Fan.Sound p { s with handle := some h, visited := s.visited ++ [s.occupant s.row] } := by
  have hturn : s.turn = s.row := turn_of_none hnone
  obtain ⟨hdue, hocc⟩ := cursor_live hs hnone hlt hg
  refine ⟨hs.count, hs.free, ?_, ?_, fun i hi => hs.ahead i ?_⟩
  · have hcount := hs.count.1
    show s.row + 1 ≤ p.count.toNat
    omega
  · show s.visited ++ [s.occupant s.row] = (s.due p (s.row + 1)).map _
    rw [due_succ, if_pos (hdue.mp halive), List.map_append, hs.visited, hturn, hocc, halive]
    rfl
  · have hi' : s.row + 1 ≤ i := hi
    omega

theorem next_sound {p : Pool ρ cap} {s : Fan ρ cap} (hs : s.Sound p) (hbody : s.handle.isSome) :
    Fan.Sound p { s with row := s.row + 1, handle := none } := by
  have hturn : Fan.turn { s with row := s.row + 1, handle := none } = s.turn := by
    rw [turn_of_isSome hbody]
    rfl
  refine ⟨hs.count, hs.free, hturn ▸ hs.turn, ?_, fun i hi => hs.ahead i (hturn ▸ hi)⟩
  rw [hturn]
  exact hs.visited

theorem step_sound {p : Pool ρ cap} {s t : Fan ρ cap} {op : FanOp ρ} (hs : s.Sound p)
    (h : Guarded Fan.Step Fan.Keeps s op t) : t.Sound p := by
  obtain ⟨hstep, hkeep⟩ := h
  cases hstep with
  | skip hnone hlt hg hdead => exact skip_sound hs hnone hlt hg hdead
  | visit hnone hlt hg halive => exact visit_sound hs hnone hlt hg halive
  | insert hbody hins => exact insert_sound hs hbody hkeep hins
  | delete hbody hdel hab => exact delete_sound hs hbody hdel hab
  | assign _ hwrite => exact assign_sound hs hwrite
  | next hbody => exact next_sound hs hbody

theorem start_sound {p : Pool ρ cap} (hfree : 0 ≤ p.freeCount) : (Fan.start p).Sound p := by
  refine ⟨⟨rfl, le_refl _⟩, hfree, Nat.zero_le _, rfl, fun t _ hlt => ⟨?_, ?_⟩⟩
  · exact ⟨fun h => ⟨h, List.not_mem_nil⟩, fun h => h.1⟩
  · have hlt' : (t : Int) < p.count := hlt
    show (if 0 ≤ (t : Int) ∧ (t : Int) < p.count ∧ p.deadRow t = false then _ else _) =
      if p.deadRow t then _ else _
    cases hdead : p.deadRow t with
    | true => exact if_neg fun h => nomatch h.2.2
    | false => exact if_pos ⟨Int.natCast_nonneg t, hlt', rfl⟩

/-- A handle that was made for a row passes the check. -/
theorem minted_passes (hword : cap < 2 ^ 31) {s t : Fan ρ cap} (hstep : s.Step .head t)
    {h : BitVec 64} (hh : t.handle = some h) : t.pool.Passes h ∧ handleSlot h = s.row := by
  cases hstep with
  | skip hnone =>
    rw [hnone] at hh
    cases hh
  | @visit g hnone hlt hg halive =>
    cases hh
    have hslot : handleSlot (packHandle s.row g) = s.row := by
      have hbound := (gen_bounds hg).2
      exact handleSlot_pack (Int.natCast_nonneg _) (by omega) g
    refine ⟨?_, hslot⟩
    rw [Pool.Passes, hslot, handleGen_pack]
    exact hg

theorem exact_of_sound (hword : cap < 2 ^ 31) {p : Pool ρ cap} {s : Fan ρ cap} (hs : s.Sound p) :
    s.Exact p := by
  refine ⟨hs.visited, fun hnone hend => ?_, fun hcap hnone hlt => ?_, fun t h hstep hh => ?_⟩
  · have hturn := hs.turn
    have hcount := hs.count.1
    rw [turn_of_none hnone] at hturn ⊢
    omega
  · have hbound : (s.row : Int) < cap := lt_of_lt_of_le hlt (hs.count.1 ▸ hcap)
    obtain ⟨g, hg⟩ := gen_eq_some (p := s.pool) (Int.natCast_nonneg s.row) hbound
    cases hdead : dead g with
    | true => exact ⟨_, .skip hnone hlt hg hdead⟩
    | false => exact ⟨_, .visit hnone hlt hg hdead⟩
  · exact minted_passes hword hstep hh

end FanLemmas

open FanLemmas

/-- In a fan over a pool whose body takes no slot that is still to come, the rows visited are those
that were live at the start and not removed before their turn, in the order of the slots. -/
theorem each_fan_visits (hword : cap < 2 ^ 31) (p : Pool ρ cap) (hfree : 0 ≤ p.freeCount)
    (ops : List (FanOp ρ)) (s : Fan ρ cap)
    (hrun : Run (Guarded Fan.Step Fan.Keeps) (Fan.start p) ops s) : s.Exact p := by
  have hs : s.Sound p := Run.inv (Fan.Sound p) (start_sound hfree)
    (fun a op b ha hstep => step_sound ha hstep) hrun
  exact exact_of_sound hword hs

/-- A pool of two rows of which the second was deleted. -/
def oneHole : Pool Unit 2 := ⟨.replicate 2 (), 2, #v[0, 1], 2, #v[1#32, 2147483650#32]⟩

/-- The body deletes the first row when it visits it. -/
theorem each_fan_visits_first : ∃ s : Fan Unit 2,
    Run (Guarded Fan.Step Fan.Keeps) (Fan.start oneHole) [.head, .delete 4294967296#64] s ∧
      s.visited = [some (.start 0)] ∧ s.Exact oneHole := by
  have hvisit : Guarded Fan.Step Fan.Keeps (Fan.start oneHole) .head _ :=
    ⟨.visit (g := 1#32) rfl (by decide) (by rfl) (by decide), trivial⟩
  have hdel : archeDelete oneHole 4294967296#64 =
      some ⟨⟨#v[(), ()], 2, #v[0, 1], 3, #v[2147483650#32, 2147483650#32]⟩, 4294967296#64, true, some 0,
        false, [2], false⟩ := by
    rfl
  have hrun := (Run.nil.snoc hvisit).snoc ⟨Fan.Step.delete rfl hdel rfl, trivial⟩
  exact ⟨_, hrun, rfl, each_fan_visits (by decide) oneHole (by decide) _ _ hrun⟩

/-- The body inserts a row when it visits the first one. The row goes to the hole and is visited. -/
theorem not_each_fan_visits : ¬ ∀ (p : Pool Unit 2) (ops : List (FanOp Unit)) (s : Fan Unit 2),
    0 ≤ p.freeCount → Run Fan.Step (Fan.start p) ops s → s.Exact p := by
  intro hall
  have hvisit : Fan.Step (Fan.start oneHole) .head _ :=
    .visit (g := 1#32) rfl (by decide) (by rfl) (by decide)
  have hins : archeInsert oneHole () (-1) =
      some ⟨⟨#v[(), ()], 2, #v[0, 1], 1, #v[1#32, 2#32]⟩, 8589934593#64, true, some 1, false, [1],
        false⟩ := by
    rfl
  have hrun := (((Run.nil.snoc hvisit).snoc (.insert rfl hins)).snoc (.next rfl)).snoc
    (.visit (g := 2#32) rfl (by decide) (by rfl) (by decide))
  have hvisited := (hall oneHole _ _ (by decide) hrun).visited
  exact absurd hvisited (by decide)

end Arche.Codegen
