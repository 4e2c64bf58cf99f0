import Mathlib.Data.Fintype.Pigeonhole
import Mathlib.Data.List.Perm.Basic
import Mathlib.Logic.Function.Basic
import Mathlib.Data.Nat.Find
import Mathlib.Data.Nat.ModEq

/-!
# Open addressing

A table of `n` slots in which a key is looked for from the slot of its hash on, slot by slot and
around the end, up to the key or a slot that is free.

* `Table n h s es`: the slots `s` hold the entries `es`, each where a walk from the hash of its key
  comes to it.

1. `Table.probe_found`, `Table.probe_free`: where there is room, the walk ends, on the entry of the
   key or on a slot that is free.
2. `Table.insert`: an entry with a new key goes into that slot.
3. `Table.rehash`: moving the entries one by one into a new table keeps them all.
-/

namespace Arche.Lib.Probing

variable {κ ν : Type}

abbrev Slots (κ ν : Type) := Nat → Option (κ × ν)

/-- The walk from slot `j`: where it stops, and the value found there. -/
def probe [DecidableEq κ] (n : Nat) (s : Slots κ ν) (k : κ) : Nat → Nat → Option (Nat × Option ν)
  | 0, _ => none
  | fuel + 1, j =>
    match s j with
    | none => some (j, none)
    | some (k', v) => if k' = k then some (j, some v) else probe n s k fuel ((j + 1) % n)

/-- The walk from slot `j` to a slot that is free. -/
def free (n : Nat) (s : Slots κ ν) : Nat → Nat → Option Nat
  | 0, _ => none
  | fuel + 1, j =>
    match s j with
    | none => some j
    | some _ => free n s fuel ((j + 1) % n)

def place (n : Nat) (h : κ → Nat) (s : Slots κ ν) (e : κ × ν) : Option (Slots κ ν) :=
  (free n s n (h e.1 % n)).map fun j => Function.update s j (some e)

/-- The entries of the slots below `m`, moved into a table of `n` slots. -/
def rehash (n : Nat) (h : κ → Nat) (s : Slots κ ν) (m : Nat) : Option (Slots κ ν) :=
  (List.range m).foldlM (fun s' i => match s i with
    | none => some s'
    | some e => place n h s' e) (fun _ => none)

structure Table (n : Nat) (h : κ → Nat) (s : Slots κ ν) (es : List (κ × ν)) : Prop where
  keys : (es.map Prod.fst).Nodup
  mem : ∀ i e, i < n → s i = some e → e ∈ es
  once : ∀ i j e e', i < n → j < n → s i = some e → s j = some e' → e.1 = e'.1 → i = j
  found : ∀ e ∈ es, ∃ d, d < n ∧ s ((h e.1 + d) % n) = some e ∧
    ∀ d' < d, (s ((h e.1 + d') % n)).isSome = true

variable {n m : Nat} {h : κ → Nat} {s : Slots κ ν} {es : List (κ × ν)} {k : κ} {v : ν}

/-! ## The walk -/

theorem succ_mod (a d : Nat) (n : Nat) : ((a + d) % n + 1) % n = (a + (d + 1)) % n := by
  rw [Nat.mod_add_mod, Nat.add_assoc]

theorem probe_skip [DecidableEq κ] {a d : Nat} (fuel : Nat)
    (hskip : ∀ d' < d, ∃ e, s ((a + d') % n) = some e ∧ e.1 ≠ k) :
    probe n s k (fuel + d) (a % n) = probe n s k fuel ((a + d) % n) := by
  induction d generalizing fuel with
  | zero => rfl
  | succ d ih =>
    obtain ⟨⟨k', v'⟩, he, hne⟩ := hskip d (Nat.lt_succ_self d)
    have hd : probe n s k (fuel + 1 + d) (a % n) = probe n s k (fuel + 1) ((a + d) % n) :=
      ih (fuel + 1) fun d' hd' => hskip d' (Nat.lt_succ_of_lt hd')
    rw [Nat.add_right_comm, Nat.add_assoc fuel d 1] at hd
    rw [hd, probe, he, ← succ_mod a d n]
    exact if_neg hne

theorem free_skip {a d : Nat} (fuel : Nat)
    (hskip : ∀ d' < d, (s ((a + d') % n)).isSome = true) :
    free n s (fuel + d) (a % n) = free n s fuel ((a + d) % n) := by
  induction d generalizing fuel with
  | zero => rfl
  | succ d ih =>
    obtain ⟨e, he⟩ := Option.isSome_iff_exists.mp (hskip d (Nat.lt_succ_self d))
    have hd : free n s (fuel + 1 + d) (a % n) = free n s (fuel + 1) ((a + d) % n) :=
      ih (fuel + 1) fun d' hd' => hskip d' (Nat.lt_succ_of_lt hd')
    rw [Nat.add_right_comm, Nat.add_assoc fuel d 1] at hd
    rw [hd, free, he, ← succ_mod a d n]

theorem probe_stop [DecidableEq κ] {a d fuel : Nat} (hd : d < fuel)
    (hskip : ∀ d' < d, ∃ e, s ((a + d') % n) = some e ∧ e.1 ≠ k) :
    (s ((a + d) % n) = none → probe n s k fuel (a % n) = some ((a + d) % n, none)) ∧
    ∀ v, s ((a + d) % n) = some (k, v) →
      probe n s k fuel (a % n) = some ((a + d) % n, some v) := by
  obtain ⟨m, rfl⟩ : ∃ m, fuel = m + 1 + d := ⟨fuel - d - 1, by omega⟩
  rw [probe_skip (m + 1) hskip]
  refine ⟨fun hnone => ?_, fun v hsome => ?_⟩
  · rw [probe, hnone]
  · rw [probe, hsome]
    exact if_pos rfl

theorem free_stop {a d fuel : Nat} (hd : d < fuel)
    (hskip : ∀ d' < d, (s ((a + d') % n)).isSome = true) (hnone : s ((a + d) % n) = none) :
    free n s fuel (a % n) = some ((a + d) % n) := by
  obtain ⟨m, rfl⟩ : ∃ m, fuel = m + 1 + d := ⟨fuel - d - 1, by omega⟩
  rw [free_skip (m + 1) hskip, free, hnone]

/-! ## Room -/

/-- Slots that are all taken hold as many entries. -/
theorem Table.exists_free (ht : Table n h s es) (hroom : es.length < n) : ∃ i < n, s i = none := by
  by_contra hfull
  have hsome (i : Fin n) : ∃ e, s i = some e :=
    Option.ne_none_iff_exists'.mp fun hnone => hfull ⟨i, i.isLt, hnone⟩
  choose e he using hsome
  have hindex (i : Fin n) : ∃ p : Fin es.length, es.get p = e i :=
    List.mem_iff_get.mp (ht.mem i (e i) i.isLt (he i))
  choose p hp using hindex
  obtain ⟨i, j, hne, hij⟩ :=
    Fintype.exists_ne_map_eq_of_card_lt p (by simpa only [Fintype.card_fin] using hroom)
  refine hne (Fin.ext (ht.once i j (e i) (e j) i.isLt j.isLt (he i) (he j) ?_))
  rw [← hp i, ← hp j, hij]

/-- From any slot a walk around the table comes to one that is free. -/
theorem Table.exists_first (ht : Table n h s es) (hroom : es.length < n) (a : Nat) :
    ∃ d < n, s ((a + d) % n) = none ∧ ∀ d' < d, (s ((a + d') % n)).isSome = true := by
  obtain ⟨i, hi, hfree⟩ := ht.exists_free hroom
  have hwalk : ∃ d, s ((a + d) % n) = none := by
    refine ⟨i + (n - a % n), ?_⟩
    have ha : a % n < n := Nat.mod_lt a (Nat.lt_of_le_of_lt (Nat.zero_le i) hi)
    have hround : (a + (i + (n - a % n))) % n = i := by
      rw [← Nat.mod_add_mod, show a % n + (i + (n - a % n)) = i + n by omega, Nat.add_mod_right,
        Nat.mod_eq_of_lt hi]
    rw [hround, hfree]
  classical
  refine ⟨Nat.find hwalk, ?_, Nat.find_spec hwalk, fun d' hd' => ?_⟩
  · -- a walk of `n` steps or more has passed the slot before
    by_contra hge
    have hsub := Nat.find_min hwalk (m := Nat.find hwalk - n) (by omega)
    refine hsub ?_
    have hspec := Nat.find_spec hwalk
    rwa [show a + Nat.find hwalk = a + (Nat.find hwalk - n) + n by omega, Nat.add_mod_right] at hspec
  · exact Option.ne_none_iff_isSome.mp (Nat.find_min hwalk hd')

section Lookup
variable [BEq κ] [LawfulBEq κ]

theorem lookup_of_mem {e : κ × ν} (hkeys : (es.map Prod.fst).Nodup) (he : e ∈ es) :
    es.lookup e.1 = some e.2 := by
  induction es with
  | nil => exact nomatch he
  | cons e' es ih =>
    rw [List.map_cons, List.nodup_cons] at hkeys
    rw [List.lookup_cons]
    rcases List.mem_cons.mp he with rfl | he
    · rw [beq_self_eq_true]
    · have hne : e.1 ≠ e'.1 := fun heq => hkeys.1 (heq ▸ List.mem_map_of_mem he)
      rw [beq_false_of_ne hne]
      exact ih hkeys.2 he

theorem mem_of_lookup (hlookup : es.lookup k = some v) : (k, v) ∈ es := by
  obtain ⟨before, after, rfl, -⟩ := List.lookup_eq_some_iff.mp hlookup
  exact List.mem_append_right _ List.mem_cons_self

/-- The walk for a key of the table ends on its entry. -/
theorem Table.probe_found [DecidableEq κ] (ht : Table n h s es) (hk : es.lookup k = some v) :
    ∃ j, probe n s k n (h k % n) = some (j, some v) := by
  obtain ⟨d, hd, hat, hbefore⟩ := ht.found (k, v) (mem_of_lookup hk)
  refine ⟨_, (probe_stop hd fun d' hd' => ?_).2 v hat⟩
  obtain ⟨e, he⟩ := Option.isSome_iff_exists.mp (hbefore d' hd')
  refine ⟨e, he, fun heq => ?_⟩
  have hn : 0 < n := Nat.lt_of_le_of_lt (Nat.zero_le d) hd
  -- the same slot twice within one round
  have hslot := ht.once _ _ e (k, v) (Nat.mod_lt _ hn) (Nat.mod_lt _ hn) he hat heq
  have hmod : d' ≡ d [MOD n] := Nat.ModEq.add_left_cancel' (h k) hslot
  rw [Nat.ModEq, Nat.mod_eq_of_lt (Nat.lt_trans hd' hd), Nat.mod_eq_of_lt hd] at hmod
  exact absurd hd' (hmod ▸ Nat.lt_irrefl d)

theorem ne_of_lookup (hk : es.lookup k = none) {e : κ × ν} (he : e ∈ es) : e.1 ≠ k :=
  (bne_iff_ne.mp (List.lookup_eq_none_iff.mp hk e he)).symm

/-- The walk for another key ends on a slot that is free. -/
theorem Table.probe_free [DecidableEq κ] (ht : Table n h s es) (hroom : es.length < n)
    (hk : es.lookup k = none) :
    ∃ d < n, probe n s k n (h k % n) = some ((h k + d) % n, none) ∧ s ((h k + d) % n) = none ∧
      ∀ d' < d, (s ((h k + d') % n)).isSome = true := by
  obtain ⟨d, hd, hnone, hbefore⟩ := ht.exists_first hroom (h k)
  have hn : 0 < n := Nat.lt_of_le_of_lt (Nat.zero_le d) hd
  refine ⟨d, hd, (probe_stop hd fun d' hd' => ?_).1 hnone, hnone, hbefore⟩
  obtain ⟨e, he⟩ := Option.isSome_iff_exists.mp (hbefore d' hd')
  exact ⟨e, he, ne_of_lookup hk (ht.mem _ e (Nat.mod_lt _ hn) he)⟩

/-! ## Entries -/

/-- A new key in the first slot that is free. -/
theorem Table.insert (ht : Table n h s es) (hk : es.lookup k = none) {d : Nat} (hd : d < n)
    (hnone : s ((h k + d) % n) = none) (hbefore : ∀ d' < d, (s ((h k + d') % n)).isSome = true) :
    Table n h (Function.update s ((h k + d) % n) (some (k, v))) (es ++ [(k, v)]) := by
  have hkeep {i : Nat} (hi : (s i).isSome = true) :
      (Function.update s ((h k + d) % n) (some (k, v)) i) = s i := by
    refine Function.update_of_ne ?_ _ _
    rintro rfl
    rw [hnone] at hi
    cases hi
  refine ⟨?_, fun i e hi he => ?_, fun i j e e' hi hj he he' heq => ?_, fun e he => ?_⟩
  · rw [List.map_append, List.nodup_append]
    refine ⟨ht.keys, List.nodup_singleton k, fun a ha b hb => ?_⟩
    obtain ⟨e, he, rfl⟩ := List.mem_map.mp ha
    rw [List.mem_singleton.mp hb]
    exact ne_of_lookup hk he
  · rcases eq_or_ne i ((h k + d) % n) with rfl | hne
    · rw [Function.update_self] at he
      exact List.mem_append_right _ (List.mem_singleton.mpr (Option.some.inj he).symm)
    · rw [Function.update_of_ne hne] at he
      exact List.mem_append_left _ (ht.mem i e hi he)
  · rcases eq_or_ne i ((h k + d) % n) with rfl | hi' <;>
      rcases eq_or_ne j ((h k + d) % n) with rfl | hj'
    · rfl
    · rw [Function.update_self] at he
      rw [Function.update_of_ne hj'] at he'
      obtain rfl := Option.some.inj he
      exact absurd heq.symm (ne_of_lookup hk (ht.mem j e' hj he'))
    · rw [Function.update_of_ne hi'] at he
      rw [Function.update_self] at he'
      obtain rfl := Option.some.inj he'
      exact absurd heq (ne_of_lookup hk (ht.mem i e hi he))
    · rw [Function.update_of_ne hi'] at he
      rw [Function.update_of_ne hj'] at he'
      exact ht.once i j e e' hi hj he he' heq
  · rcases List.mem_append.mp he with hold | hnew
    · obtain ⟨d', hd', hat, hbef⟩ := ht.found e hold
      refine ⟨d', hd', ?_, fun d'' hd'' => ?_⟩
      · rw [hkeep (by rw [hat]; rfl), hat]
      · rw [hkeep (hbef d'' hd'')]
        exact hbef d'' hd''
    · obtain rfl := List.mem_singleton.mp hnew
      refine ⟨d, hd, Function.update_self _ _ _, fun d' hd' => ?_⟩
      rw [hkeep (hbefore d' hd')]
      exact hbefore d' hd'

end Lookup

theorem Table.empty (n : Nat) (h : κ → Nat) : Table n h (fun _ => none : Slots κ ν) [] :=
  ⟨List.nodup_nil, fun _ _ _ h => (nomatch h), fun _ _ _ _ _ _ h => (nomatch h),
    fun _ h => (nomatch h)⟩

/-- The order of the entries does not matter. -/
theorem Table.perm (ht : Table n h s es) {es' : List (κ × ν)} (hp : es.Perm es') :
    Table n h s es' :=
  ⟨(hp.map Prod.fst).nodup_iff.mp ht.keys, fun i e hi he => hp.mem_iff.mp (ht.mem i e hi he),
    ht.once, fun e he => ht.found e (hp.mem_iff.mpr he)⟩

section Placing
variable [BEq κ] [LawfulBEq κ]

theorem Table.place {e : κ × ν} (ht : Table n h s es) (hroom : es.length < n)
    (hk : es.lookup e.1 = none) :
    ∃ s', place n h s e = some s' ∧ Table n h s' (es ++ [e]) := by
  obtain ⟨d, hd, hnone, hbefore⟩ := ht.exists_first hroom (h e.1)
  refine ⟨_, ?_, ht.insert hk hd hnone hbefore⟩
  rw [Probing.place, free_stop hd hbefore hnone]
  rfl

/-- Entries with different keys, placed one after the other. -/
theorem Table.placeAll {l : List (κ × ν)} (ht : Table n h s es)
    (hkeys : ((es ++ l).map Prod.fst).Nodup) (hroom : (es ++ l).length ≤ n) :
    ∃ s', l.foldlM (Probing.place n h) s = some s' ∧ Table n h s' (es ++ l) := by
  induction l generalizing s es with
  | nil => exact ⟨s, rfl, by rwa [List.append_nil]⟩
  | cons e l ih =>
    have hlookup : es.lookup e.1 = none := by
      rw [List.map_append, List.nodup_append] at hkeys
      exact List.lookup_eq_none_iff.mpr fun e' he' => bne_iff_ne.mpr
        (hkeys.2.2 _ (List.mem_map_of_mem he') _ List.mem_cons_self).symm
    have hlt : es.length < n := by
      rw [List.length_append, List.length_cons] at hroom
      omega
    obtain ⟨s', hs', ht'⟩ := ht.place hlt hlookup
    rw [List.append_cons] at hkeys hroom ⊢
    obtain ⟨s'', hs'', ht''⟩ := ih ht' hkeys hroom
    exact ⟨s'', by rw [List.foldlM_cons, hs']; exact hs'', ht''⟩

end Placing

/-- The entries of a table, in the order of their slots. -/
def slotted (s : Slots κ ν) (m : Nat) : List (κ × ν) := (List.range m).filterMap s

theorem rehash_eq (n : Nat) (h : κ → Nat) (s : Slots κ ν) (m : Nat) :
    rehash n h s m = (slotted s m).foldlM (Probing.place n h) (fun _ => none) := by
  unfold rehash slotted
  generalize (fun _ => none : Slots κ ν) = s'
  induction List.range m generalizing s' with
  | nil => rfl
  | cons i l ih =>
    rw [List.foldlM_cons, List.filterMap_cons]
    cases hi : s i with
    | none => exact ih s'
    | some e =>
      rw [List.foldlM_cons]
      exact bind_congr fun s'' => ih s''

theorem Table.perm_slotted (ht : Table m h s es) : (slotted s m).Perm es := by
  have hnodup : (slotted s m).Nodup := by
    refine List.pairwise_filterMap.mpr (List.nodup_range.imp_of_mem fun {i j} hi hj hne => ?_)
    rintro e he e' he' rfl
    exact hne (ht.once i j e e (List.mem_range.mp hi) (List.mem_range.mp hj) he he' rfl)
  refine (List.perm_ext_iff_of_nodup hnodup (List.Nodup.of_map _ ht.keys)).mpr fun e => ?_
  rw [slotted, List.mem_filterMap]
  constructor
  · rintro ⟨i, hi, he⟩
    exact ht.mem i e (List.mem_range.mp hi) he
  · intro he
    obtain ⟨d, hd, hat, -⟩ := ht.found e he
    exact ⟨_, List.mem_range.mpr (Nat.mod_lt _ (Nat.lt_of_le_of_lt (Nat.zero_le d) hd)), hat⟩

/-- The entries of `m` slots, moved into `n`. -/
theorem Table.rehash [DecidableEq κ] (ht : Table m h s es) (hroom : es.length ≤ n) :
    ∃ s', rehash n h s m = some s' ∧ Table n h s' es := by
  have hperm := ht.perm_slotted
  obtain ⟨s', hs', ht'⟩ := (Table.empty n h).placeAll
    ((hperm.map Prod.fst).nodup_iff.mpr ht.keys) (hperm.length_eq.trans_le hroom)
  exact ⟨s', (rehash_eq n h s m).trans hs', ht'.perm hperm⟩

end Arche.Lib.Probing
