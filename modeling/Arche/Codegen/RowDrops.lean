import Arche.Codegen.WriteFields

/-!
# Destructors of columns

`cg_emit_rowdrop` goes into block `do_free` of `@arche_delete_P`: for every column whose type has a
registered `@drop` it loads the value of the row and calls the destructor. `@arche_insert_P`
overwrites the row of an evicted slot and calls none.

* `dtor` is `drop_dtor_for_type` of the columns' declared types.
* `Tenancy` keeps a history beside the pool: the values of the successful inserts, the insert whose
  row stands in a slot, the inserts whose rows have left, and the destructor calls with the insert
  whose row the slot held.

1. `drops_once`: in every run without an eviction of a row that an insert stored, the values of such
   a row are destroyed once if it has left and else not at all, if the columns with a destructor
   have one element a row. A call that reports `ok = 0` leaves the pool as it is.
2. `not_drops_once`: an evicted row is not destroyed.
-/

namespace Arche.Codegen

open Arche.Lib WriteLemmas PoolLemmas

variable {S : Shape} {cap : Nat}

/-! ## The calls -/

/-- A call of a destructor. -/
structure Drop (S : Shape) where
  dtor : String
  col : Fin S.ncol
  value : S.Elem col

section Calls

variable (dtor : Fin S.ncol → Option String)

/-- `cg_emit_rowdrop`, on the row at `slot`. The load takes element `slot` of the column. -/
def rowDrops (p : Pool S.Row cap) (slot : Nat) : List (Drop S) :=
  (List.finRange S.ncol).filterMap fun c => (dtor c).map fun f => ⟨f, c, p.slices slot c⟩

/-- `@arche_delete_P` with the destructors that it calls. It frees a row in block `do_free` only. -/
def archeDeleteDrops (p : Pool S.Row cap) (handle : BitVec 64) :
    Option (Outcome S.Row cap × List (Drop S)) :=
  (archeDelete p handle).map fun o =>
    (o, match o.slot with
      | some slot => rowDrops dtor p slot.toNat
      | none => [])

/-! ## The history -/

structure Tenancy (S : Shape) (cap : Nat) where
  pool : Pool S.Row cap
  issued : List (BitVec 64)
  stored : List ((c : Fin S.ncol) → S.Elem c)
  occupant : Int → Option Nat
  left : List Nat
  log : List (Option Nat × Drop S)

def Tenancy.start (cap : Nat) (zero : S.Row) (length : Int) : Tenancy S cap :=
  ⟨allocInit cap zero length, [], [], fun _ => none, [], []⟩

inductive DropCall (S : Shape)
  | insert (args : Args S) (evictSlot : Int)
  | delete (handle : BitVec 64)

namespace Tenancy

variable (s : Tenancy S cap)

/-- The history after an insert. -/
def inserted (args : Args S) (o : Outcome S.Row cap) : Tenancy S cap :=
  match o.slot with
  | some slot =>
    { s with
      pool := o.pool
      issued := o.handle :: s.issued
      stored := s.stored ++ [args.value]
      occupant := Function.update s.occupant slot (some s.stored.length)
      left := s.left ++ if o.evict then (s.occupant slot).toList else [] }
  | none => { s with pool := o.pool, issued := o.handle :: s.issued }

/-- The history after a delete. -/
def deleted (o : Outcome S.Row cap) (drops : List (Drop S)) : Tenancy S cap :=
  match o.slot with
  | some slot =>
    { s with
      pool := o.pool
      occupant := Function.update s.occupant slot none
      left := s.left ++ (s.occupant slot).toList
      log := s.log ++ drops.map (s.occupant slot, ·) }
  | none => { s with pool := o.pool, log := s.log ++ drops.map (none, ·) }

/-- One call that returns. -/
def Step : DropCall S → Tenancy S cap → Prop
  | .insert args evictSlot, t => EvictSlot cap evictSlot ∧
    ∃ o, archeInsertArgs s.pool args evictSlot = some o ∧ t = s.inserted args o
  | .delete handle, t => handle ∈ s.issued ∧ ∃ o drops,
    archeDeleteDrops dtor s.pool handle = some (o, drops) ∧ o.aborted = false ∧
      t = s.deleted o drops

/-- The values of insert `k` are destroyed once if its row has left, and not at all if it has not. -/
def DestroyedOnce : Prop :=
  ∀ k values, s.stored[k]? = some values → ∀ c,
    (s.log.filter fun e => e.1 = some k ∧ e.2.col = c) =
      if k ∈ s.left then (dtor c).toList.map fun f => (some k, ⟨f, c, values c⟩) else []

/-- A call that reports `ok = 0` leaves the pool as it is and calls no destructor. -/
def FailsQuietly : Prop :=
  (∀ args evictSlot o, archeInsertArgs s.pool args evictSlot = some o → o.ok = false →
    o.pool = s.pool) ∧
  ∀ handle o drops, archeDeleteDrops dtor s.pool handle = some (o, drops) → o.ok = false →
    o.pool = s.pool ∧ drops = []

/-- An insert evicts no row that an insert stored, and a delete has a cell of the free list to store
to. -/
def Keeps : DropCall S → Prop
  | .insert _ evictSlot =>
    s.pool.freeCount ≤ 1 → s.pool.count ≥ cap → s.occupant evictSlot = none
  | .delete handle => SpareCell (⟨s.pool, s.issued⟩ : Sys S.Row cap) (.delete handle)

end Tenancy

/-- What destructors are for, in every run of calls that meet `C`. -/
def DropsOnce (cap : Nat) (C : Tenancy S cap → DropCall S → Prop) : Prop :=
  ∀ (zero : S.Row) (length : Int), 0 ≤ length → length ≤ cap →
    ∀ (calls : List (DropCall S)) (s : Tenancy S cap),
      Run (Guarded (Tenancy.Step dtor) C) (Tenancy.start cap zero length) calls s →
        s.DestroyedOnce dtor ∧ s.FailsQuietly dtor

end Calls

namespace DropLemmas

variable {dtor : Fin S.ncol → Option String} {s : Tenancy S cap}

/-! ## What the calls do -/

theorem filter_rowDrops (p : Pool S.Row cap) (slot : Nat) (c : Fin S.ncol) :
    ((rowDrops dtor p slot).filter fun d => d.col = c) =
      (dtor c).toList.map fun f => ⟨f, c, p.slices slot c⟩ := by
  have hcols : ∀ (cs : List (Fin S.ncol)), cs.Nodup →
      ((cs.filterMap fun d => (dtor d).map fun f =>
        (⟨f, d, p.slices slot d⟩ : Drop S)).filter fun d => d.col = c) =
      if c ∈ cs then (dtor c).toList.map fun f => ⟨f, c, p.slices slot c⟩ else [] := by
    intro cs
    induction cs with
    | nil => exact fun _ => rfl
    | cons d cs ih =>
      intro hnodup
      obtain ⟨hd, hnodup⟩ := List.nodup_cons.1 hnodup
      have hrest := ih hnodup
      by_cases hdc : d = c
      · subst hdc
        rw [if_neg hd] at hrest
        rw [if_pos List.mem_cons_self]
        cases hf : dtor d with
        | none => simp [hf, hrest]
        | some f => simp [hf, hrest]
      · have hmem : c ∈ d :: cs ↔ c ∈ cs := by simp [Ne.symm hdc]
        simp only [hmem]
        cases hf : dtor d with
        | none => simpa [hf] using hrest
        | some f => simpa [hf, hdc] using hrest
  rw [rowDrops, hcols _ (List.nodup_finRange _), if_pos (List.mem_finRange c)]

theorem archeDelete_rows {p : Pool S.Row cap} {h : BitVec 64} {o : Outcome S.Row cap}
    (hdel : archeDelete p h = some o) : o.pool.rows = p.rows := by
  unfold archeDelete at hdel
  dsimp only at hdel
  split at hdel
  · cases hdel
  · split at hdel
    · cases hdel
      rfl
    · split at hdel
      · cases hdel
        rfl
      · split at hdel
        · cases hdel
        · next p2 hstore =>
          cases hdel
          unfold Pool.storeFree Pool.setGen at hstore
          split at hstore
          · cases hstore
            rfl
          · split at hstore
            · cases hstore
              rfl
            · split at hstore
              · cases hstore
                rfl
              · cases hstore

/-- A delete that does not free a row leaves the pool as it is. -/
theorem archeDelete_failed {p : Pool S.Row cap} {h : BitVec 64} {o : Outcome S.Row cap}
    (hdel : archeDelete p h = some o) (hok : o.ok = false) : o.slot = none ∧ o.pool = p := by
  unfold archeDelete at hdel
  dsimp only at hdel
  split at hdel
  · cases hdel
  · split at hdel
    · cases hdel
      exact ⟨rfl, rfl⟩
    · split at hdel
      · cases hdel
        exact ⟨rfl, rfl⟩
      · split at hdel
        · cases hdel
        · cases hdel
          cases hok

theorem failsQuietly (dtor : Fin S.ncol → Option String) (s : Tenancy S cap) :
    s.FailsQuietly dtor := by
  refine ⟨fun args ev o ho hok => ?_, fun handle o drops ho hok => ?_⟩
  · rcases insertArgs_rows ho with ⟨-, -, -, hpool⟩ | ⟨_, _, _, htrue, _⟩
    · exact hpool
    · rw [hok] at htrue
      cases htrue
  · obtain ⟨o', ho', heq⟩ := Option.map_eq_some_iff.mp ho
    cases heq
    obtain ⟨hslot, hpool⟩ := archeDelete_failed ho' hok
    exact ⟨hpool, by rw [hslot]⟩

/-- An insert either fails or writes the row that it takes. -/
theorem insertArgs_wrote {s : Sys S.Row cap} (hg : Good s) {args : Args S} {ev : Int}
    (hev : EvictSlot cap ev) {o : Outcome S.Row cap}
    (ho : archeInsertArgs s.pool args ev = some o) :
    (o.slot = none ∧ o.pool = s.pool) ∨
      ∃ slot, o.slot = some slot ∧ 0 ≤ slot ∧ Wrote s.pool o.pool slot ∧
        (¬ s.pool.LiveAt slot ∨ s.pool.freeCount ≤ 1 ∧ s.pool.count ≥ cap ∧ slot = ev) ∧
        (∀ c, (S.col c).perRow = 1 → o.pool.slices slot.toNat c = args.value c) ∧
        ∀ i, i ≠ slot.toNat → o.pool.rows[i]? = s.pool.rows[i]? := by
  rcases insertArgs_rows ho with ⟨-, -, hslot, hpool⟩ | ⟨c, hc, hbound, -, hslot, hrows⟩
  · exact .inl ⟨hslot, hpool⟩
  · obtain ⟨row, heq, -⟩ := archeInsertArgs_eq s.pool args ev
    obtain ⟨hvalues, hothers⟩ := insertArgs_values hc hbound hrows
    rcases chooseSlot_cases hg hev with ⟨hfull, -⟩ | ⟨d, hd, h0, h1, -, hnl, hwrote⟩
    · rw [hc] at hfull
      cases hfull
    · rw [hc] at hd
      cases hd
      obtain ⟨g, q, hins, hqc, hqf, hqs, -, hqg, hqo⟩ := insert_writes row hc h0 h1
      rw [heq, hins] at ho
      cases ho
      have hqa : ¬ q.DeadAt c.slot := by
        rw [deadAt_iff hqg, dead_nextGen]
        decide
      refine .inr ⟨c.slot, rfl, h0, hwrote q hqc hqf hqs hqa hqo, ?_, hvalues, hothers⟩
      unfold chooseSlot at hc
      split at hc
      · dsimp only at hc
        split at hc
        · cases hc
        · cases hc
          exact .inl (hnl rfl)
      · split at hc
        · split at hc
          · cases hc
            exact .inr ⟨by omega, by omega, rfl⟩
          · cases hc
        · cases hc
          exact .inl (hnl rfl)

/-! ## The invariant -/

/-- What a run keeps: the row of an insert that has not left stands at one slot with its values, and
its destructors were not called. -/
structure Sound (dtor : Fin S.ncol → Option String) (s : Tenancy S cap) : Prop where
  good : Good (⟨s.pool, s.issued⟩ : Sys S.Row cap)
  live : ∀ slot k, s.occupant slot = some k → s.pool.LiveAt slot ∧ k ∉ s.left
  values : ∀ slot k, s.occupant slot = some k → ∃ v, s.stored[k]? = some v ∧
    ∀ c, (S.col c).perRow = 1 → s.pool.slices slot.toNat c = v c
  inj : ∀ slot slot' k, s.occupant slot = some k → s.occupant slot' = some k → slot = slot'
  left : ∀ k ∈ s.left, k < s.stored.length
  log : s.DestroyedOnce dtor
  owners : ∀ e ∈ s.log, ∀ k, e.1 = some k → k ∈ s.left

theorem sound_start (hcap : 1 ≤ cap) (zero : S.Row) {length : Int} (h0 : 0 ≤ length)
    (h1 : length ≤ cap) : Sound dtor (Tenancy.start cap zero length) where
  good := good_start hcap zero h0 h1
  live := nofun
  values := nofun
  inj := nofun
  left := nofun
  log := nofun
  owners := nofun

theorem liveAt_mono {p q : Pool S.Row cap} {t : Int} (hcount : p.count ≤ q.count)
    (hgen : q.gen t = p.gen t) (h : p.LiveAt t) : q.LiveAt t :=
  ⟨h.1, Int.lt_of_lt_of_le h.2.1 hcount, fun hd => h.2.2 ((deadAt_congr hgen).mp hd)⟩

theorem slices_scalar_congr {p q : Pool S.Row cap} {i : Nat} (h : q.rows[i]? = p.rows[i]?)
    {c : Fin S.ncol} (hc : (S.col c).perRow = 1) : q.slices i c = p.slices i c := by
  have hdiv : i / (S.col c).perRow = i := by rw [hc, Nat.div_one]
  unfold Pool.slices
  rw [hdiv, h]

/-- The slot of the new row holds the new insert, every other slot what it held. -/
theorem update_some {occupant : Int → Option Nat} {slot t : Int} {n k : Nat}
    (h : Function.update occupant slot (some n) t = some k) :
    (t = slot ∧ n = k) ∨ (t ≠ slot ∧ occupant t = some k) := by
  by_cases hts : t = slot
  · subst hts
    rw [Function.update_self, Option.some.injEq] at h
    exact .inl ⟨rfl, h⟩
  · rw [Function.update_of_ne hts] at h
    exact .inr ⟨hts, h⟩

theorem update_none {occupant : Int → Option Nat} {slot t : Int} {k : Nat}
    (h : Function.update occupant slot none t = some k) : t ≠ slot ∧ occupant t = some k := by
  by_cases hts : t = slot
  · subst hts
    rw [Function.update_self] at h
    cases h
  · rw [Function.update_of_ne hts] at h
    exact ⟨hts, h⟩

theorem sound_insert (hs : Sound dtor s) (hcap : 1 ≤ cap) (hword : cap < 2 ^ 31) {args : Args S}
    {ev : Int} (hev : EvictSlot cap ev) (hkeep : s.Keeps (.insert args ev))
    {o : Outcome S.Row cap} (ho : archeInsertArgs s.pool args ev = some o) :
    Sound dtor (s.inserted args o) := by
  have hgood : Good (⟨o.pool, o.handle :: s.issued⟩ : Sys S.Row cap) := by
    obtain ⟨row, heq, -⟩ := archeInsertArgs_eq s.pool args ev
    exact (insert_good hs.good hcap hword row hev).2 o (heq ▸ ho)
  rcases insertArgs_wrote hs.good hev ho with
    ⟨hslot, hpool⟩ | ⟨slot, hslot, h0, hwrote, hfree, hvalues, hothers⟩
  · have heq : s.inserted args o = { s with issued := o.handle :: s.issued } := by
      rw [Tenancy.inserted, hslot, hpool]
    have hpool' : o.pool = s.pool := hpool
    rw [hpool'] at hgood
    rw [heq]
    exact ⟨hgood, hs.live, hs.values, hs.inj, hs.left, hs.log, hs.owners⟩
  -- No insert's row stands where the new one goes.
  have hempty : s.occupant slot = none := by
    cases hocc : s.occupant slot with
    | none => rfl
    | some k =>
      rcases hfree with hdead | ⟨hone, hfull, rfl⟩
      · exact absurd (hs.live slot k hocc).1 hdead
      · exact hocc.symm.trans (hkeep hone hfull)
  have heq : s.inserted args o =
      { s with
        pool := o.pool
        issued := o.handle :: s.issued
        stored := s.stored ++ [args.value]
        occupant := Function.update s.occupant slot (some s.stored.length) } := by
    rw [Tenancy.inserted, hslot]
    simp [hempty]
  have hknown : ∀ t k, s.occupant t = some k → k < s.stored.length := by
    intro t k ht
    obtain ⟨v, hv, -⟩ := hs.values t k ht
    exact (List.getElem?_eq_some_iff.mp hv).1
  have hcount : s.pool.count ≤ o.pool.count := by
    have hcases : o.pool.count = s.pool.count ∨
        slot = s.pool.count ∧ o.pool.count = s.pool.count + 1 := hwrote.count
    omega
  rw [heq]
  refine ⟨hgood, fun t k ht => ?_, fun t k ht => ?_, fun t t' k ht ht' => ?_, fun k hk => ?_,
    fun k v hv c => ?_, hs.owners⟩
  · rcases update_some ht with ⟨rfl, rfl⟩ | ⟨hts, ht⟩
    · exact ⟨⟨h0, hwrote.bound.1, hwrote.alive⟩, fun hleft => absurd (hs.left _ hleft) (by simp)⟩
    · obtain ⟨hlive, hleft⟩ := hs.live t k ht
      exact ⟨liveAt_mono hcount (hwrote.others t hts) hlive, hleft⟩
  · rcases update_some ht with ⟨rfl, rfl⟩ | ⟨hts, ht⟩
    · exact ⟨args.value, by simp, hvalues⟩
    · obtain ⟨v, hv, hcols⟩ := hs.values t k ht
      have ht0 := (hs.live t k ht).1.1
      have hne : t.toNat ≠ slot.toNat := by omega
      refine ⟨v, ?_, fun c hc => ?_⟩
      · rw [List.getElem?_append_left (hknown t k ht), hv]
      · rw [slices_scalar_congr (hothers t.toNat hne) hc, hcols c hc]
  · rcases update_some ht with ⟨rfl, rfl⟩ | ⟨-, hold⟩
    · rcases update_some ht' with ⟨rfl, -⟩ | ⟨-, hold'⟩
      · rfl
      · exact absurd (hknown t' _ hold') (Nat.lt_irrefl _)
    · rcases update_some ht' with ⟨rfl, rfl⟩ | ⟨-, hold'⟩
      · exact absurd (hknown t _ hold) (Nat.lt_irrefl _)
      · exact hs.inj t t' k hold hold'
  · have := hs.left k hk
    simp
    omega
  · by_cases hk : k < s.stored.length
    · rw [List.getElem?_append_left hk] at hv
      exact hs.log k v hv c
    · have hnone : k ∉ s.left := fun hleft => hk (hs.left k hleft)
      rw [if_neg hnone, List.filter_eq_nil_iff]
      intro e he
      simp only [decide_eq_true_eq, not_and]
      exact fun howner => absurd (hs.owners e he k howner) hnone

/-- The calls for the row at `slot` are those for the values of the insert that it holds. -/
theorem destroyed_delete (hs : Sound dtor s)
    (hdtor : ∀ c, (dtor c).isSome → (S.col c).perRow = 1) (slot : Int) {k : Nat}
    {v : (c : Fin S.ncol) → S.Elem c} (hv : s.stored[k]? = some v) (c : Fin S.ncol) :
    ((s.log ++ (rowDrops dtor s.pool slot.toNat).map (s.occupant slot, ·)).filter
        fun e => e.1 = some k ∧ e.2.col = c) =
      if k ∈ s.left ++ (s.occupant slot).toList then
        (dtor c).toList.map fun f => (some k, ⟨f, c, v c⟩)
      else [] := by
  have hlog := hs.log k v hv c
  rw [List.filter_append, hlog]
  by_cases hocc : s.occupant slot = some k
  · -- The row of insert `k` has not left before.
    have hleft : k ∉ s.left := (hs.live slot k hocc).2
    have hmem : k ∈ s.left ++ (s.occupant slot).toList := by simp [hocc]
    obtain ⟨v', hv', hcols⟩ := hs.values slot k hocc
    rw [hv, Option.some.injEq] at hv'
    subst hv'
    rw [if_neg hleft, if_pos hmem, List.nil_append, List.filter_map, hocc]
    have hpred : ((fun e : Option Nat × Drop S => decide (e.1 = some k ∧ e.2.col = c)) ∘
        fun d => (some k, d)) = fun d => decide (d.col = c) := by
      funext d
      simp
    rw [hpred, filter_rowDrops]
    cases hf : dtor c with
    | none => rfl
    | some f =>
      have hvalue := hcols c (hdtor c (by rw [hf]; rfl))
      simp [hvalue]
  · have hmem : k ∈ s.left ++ (s.occupant slot).toList ↔ k ∈ s.left := by
      simp [hocc]
    have hnone : ((rowDrops dtor s.pool slot.toNat).map (s.occupant slot, ·)).filter
        (fun e => e.1 = some k ∧ e.2.col = c) = [] := by
      rw [List.filter_eq_nil_iff]
      intro e he
      obtain ⟨d, -, rfl⟩ := List.mem_map.mp he
      simp [hocc]
    rw [hnone, List.append_nil]
    simp only [hmem]

theorem sound_delete (hs : Sound dtor s) (hdtor : ∀ c, (dtor c).isSome → (S.col c).perRow = 1)
    {handle : BitVec 64} (hissued : handle ∈ s.issued) (hkeep : s.Keeps (.delete handle))
    {o : Outcome S.Row cap} {drops : List (Drop S)}
    (ho : archeDeleteDrops dtor s.pool handle = some (o, drops)) (hab : o.aborted = false) :
    Sound dtor (s.deleted o drops) := by
  obtain ⟨o', ho', heq⟩ := Option.map_eq_some_iff.mp ho
  cases heq
  have hgood : Good (⟨o.pool, s.issued⟩ : Sys S.Row cap) :=
    (delete_good hs.good hissued hkeep).2 o ho'
  have hrows := archeDelete_rows ho'
  have hfree : 0 ≤ s.pool.freeCount := le_trans (by decide) hs.good.rep.free_pos
  rcases delete_outcome ho' hab hfree with ⟨hslot, hpool⟩ | ⟨slot, g, hslot, hg, hdead, hcount, -, hothers⟩
  · have hsame : s.deleted o (match o.slot with
        | some slot => rowDrops dtor s.pool slot.toNat
        | none => []) = s := by
      rw [Tenancy.deleted, hslot, hpool]
      simp
    rw [hsame]
    exact hs
  have hslot0 : 0 ≤ slot := (gen_bounds hg).1
  have heq : s.deleted o (match o.slot with
      | some slot => rowDrops dtor s.pool slot.toNat
      | none => []) =
      { s with
        pool := o.pool
        occupant := Function.update s.occupant slot none
        left := s.left ++ (s.occupant slot).toList
        log := s.log ++ (rowDrops dtor s.pool slot.toNat).map (s.occupant slot, ·) } := by
    rw [Tenancy.deleted, hslot]
  have hleave : ∀ t k, t ≠ slot → s.occupant t = some k → k ∉ (s.occupant slot).toList := by
    intro t k hts ht hk
    exact hts (hs.inj t slot k ht (Option.mem_toList.mp hk))
  rw [heq]
  refine ⟨hgood, fun t k ht => ?_, fun t k ht => ?_, fun t t' k ht ht' => ?_, fun k hk => ?_,
    fun k v hv c => ?_, fun e he k hk => ?_⟩
  · obtain ⟨hts, ht⟩ := update_none ht
    obtain ⟨hlive, hleft⟩ := hs.live t k ht
    refine ⟨liveAt_mono (le_of_eq hcount.symm) (hothers t hts) hlive, fun hk => ?_⟩
    rcases List.mem_append.mp hk with hk | hk
    · exact hleft hk
    · exact hleave t k hts ht hk
  · obtain ⟨-, ht⟩ := update_none ht
    obtain ⟨v, hv, hcols⟩ := hs.values t k ht
    refine ⟨v, hv, fun c hc => ?_⟩
    have hcell : o.pool.slices t.toNat c = s.pool.slices t.toNat c :=
      slices_scalar_congr (by rw [hrows]) hc
    rw [hcell, hcols c hc]
  · exact hs.inj t t' k (update_none ht).2 (update_none ht').2
  · rcases List.mem_append.mp hk with hk | hk
    · exact hs.left k hk
    · obtain ⟨v, hv, -⟩ := hs.values slot k (Option.mem_toList.mp hk)
      exact (List.getElem?_eq_some_iff.mp hv).1
  · exact destroyed_delete hs hdtor slot hv c
  · rcases List.mem_append.mp he with he | he
    · exact List.mem_append_left _ (hs.owners e he k hk)
    · obtain ⟨d, -, rfl⟩ := List.mem_map.mp he
      exact List.mem_append_right _ (Option.mem_toList.mpr hk)

theorem sound_step (hdtor : ∀ c, (dtor c).isSome → (S.col c).perRow = 1) (hcap : 1 ≤ cap)
    (hword : cap < 2 ^ 31) (s : Tenancy S cap) (call : DropCall S) (t : Tenancy S cap)
    (hstep : s.Step dtor call t) (hkeep : s.Keeps call) (hs : Sound dtor s) : Sound dtor t := by
  cases call with
  | insert args ev =>
    obtain ⟨hev, o, ho, rfl⟩ := hstep
    exact sound_insert hs hcap hword hev hkeep ho
  | delete handle =>
    obtain ⟨hissued, o, drops, ho, hab, rfl⟩ := hstep
    exact sound_delete hs hdtor hissued hkeep ho hab

end DropLemmas

/-! ## The results -/

open DropLemmas in
/-- In a run that evicts no row of an insert, the values of a row are destroyed once, as it leaves. -/
theorem drops_once (dtor : Fin S.ncol → Option String)
    (hdtor : ∀ c, (dtor c).isSome → (S.col c).perRow = 1) (hcap : 1 ≤ cap)
    (hword : cap < 2 ^ 31) : DropsOnce dtor cap Tenancy.Keeps := by
  intro zero length h0 h1 calls s hrun
  have hs : Sound dtor s := by
    refine hrun.inv (Sound dtor) (sound_start hcap zero h0 h1) ?_
    rintro a call b ha ⟨hstep, hkeep⟩
    exact sound_step hdtor hcap hword a call b hstep hkeep ha
  exact ⟨hs.log, failsQuietly dtor s⟩

/-- `open_file (f fd)`, with `@drop(fd)`. -/
def openFile : Shape := ⟨1, fun _ => ⟨.opaqueCell, 1⟩⟩

def closeFd : Fin openFile.ncol → Option String := fun _ => some "os.close"

theorem drops_once_fd : DropsOnce closeFd 2 Tenancy.Keeps :=
  drops_once closeFd (fun _ _ => rfl) (by decide) (by decide)

/-- The arguments of `insert(open_file, fd)`. -/
def fdArgs (fd : BitVec 64) : Args openFile := ⟨fun _ => fd, fun _ => .outside fun _ => 0⟩

/-- The second insert evicts the row of the first one. Its descriptor is not closed. -/
theorem not_drops_once : ¬ DropsOnce closeFd 1 (fun _ _ => True) := by
  intro h
  have hrun : ∃ s : Tenancy openFile 1,
      Run (Guarded (Tenancy.Step closeFd) fun _ _ => True)
        (Tenancy.start 1 (fun _ => Vector.replicate _ 0) 0)
        ([] ++ [.insert (fdArgs 3) (-1)] ++ [.insert (fdArgs 4) 0]) s ∧
      s.stored[0]?.isSome ∧ s.left = [0] ∧ s.log = [] :=
    ⟨_, Run.snoc (Run.snoc Run.nil ⟨⟨.inl rfl, _, rfl, rfl⟩, trivial⟩)
      ⟨⟨.inr (by decide), _, rfl, rfl⟩, trivial⟩, rfl, rfl, rfl⟩
  obtain ⟨s, hrun, hstored, hleft, hlog⟩ := hrun
  obtain ⟨values, hvalues⟩ := Option.isSome_iff_exists.mp hstored
  have honce := (h _ 0 (by decide) (by decide) _ s hrun).1 0 values hvalues ⟨0, by decide⟩
  rw [hlog, hleft, if_pos (by simp)] at honce
  cases honce

end Arche.Codegen
