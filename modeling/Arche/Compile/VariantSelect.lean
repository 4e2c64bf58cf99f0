import Arche.Lib.Layers
import Mathlib.Data.List.DropRight
import Mathlib.Data.List.Dedup
import Mathlib.Data.List.Perm.Subperm

/-!
# The choice of variants

Which variant backs a device is said in four places: the `[select]` table of the manifest, the table
of the active target, `ARCHE_SELECT`, and `--select`. `variant_map_load_resolved` puts them into one
map, the lowest first.

* Names and values go through buffers of 64 bytes, lines through one of 1024. `fit n` is what such a
  buffer of `n` bytes holds. `Fits`: nothing is cut.
* `resolved` is the last value in the highest source that mentions the device. An empty one selects
  nothing.
* The table of a target and `--select` are maps of their own first, and an empty value for a device
  that is not in the map leaves no entry. `ClearsKept`: no such value was to clear anything.

1. `lookup_loadResolved`: what a lookup gives, source by source.
2. `lookup_resolved_iff`: if all fits, it is the resolved value if and only if no clearing gets
   lost.
-/

namespace Arche.Compile.VariantSelect

open Arche.Lib

abbrev Text := List Char

/-- What a buffer of `n` bytes holds of a text. -/
def fit (n : Nat) (s : Text) : Text := s.take (n - 1)

/-! ## The map -/

/-- The devices with their variants, `none` for one that was cleared. -/
abbrev VariantMap := List (Text × Option Text)

/-- `variant && variant[0]`. -/
def chosen (variant : Text) : Option Text := if variant = [] then none else some variant

def replaceItem (device : Text) (v : Option Text) : VariantMap → VariantMap
  | [] => []
  | e :: m => if e.1 = device then (device, v) :: m else e :: replaceItem device v m

/-- `variant_map_set`. -/
def variantMapSet (m : VariantMap) (device variant : Text) : VariantMap :=
  if device = [] then m
  else if m.any fun e => e.1 == device then replaceItem device (chosen variant) m
  else if variant = [] then m
  else m ++ [(device, some variant)]

/-- `variant_map_lookup`. -/
def variantMapLookup (m : VariantMap) (device : Text) : Option Text :=
  (m.find? fun e => e.1 == device).bind (·.2)

/-- `variant_map_merge`. -/
def variantMapMerge (dst src : VariantMap) : VariantMap :=
  src.foldl (fun m e => variantMapSet m e.1 (e.2.getD [])) dst

/-! ## `dev=var` lists -/

def isBlank (c : Char) : Bool := c == ' ' || c == '\t'

def isSeparator (c : Char) : Bool := c == ',' || isBlank c

/-- The part before the first `=` and the part behind it. -/
def splitEq (s : Text) : Option (Text × Text) :=
  if '=' ∈ s then some (s.takeWhile (· ≠ '='), (s.dropWhile (· ≠ '=')).tail) else none

/-- The loop of `variant_map_parse`, up to the copies into `dev` and `var`. -/
def parseSpec : Nat → Text → List (Text × Text)
  | 0, _ => []
  | fuel + 1, s =>
    let p := s.dropWhile isSeparator
    if p = [] then []
    else
      let entry := (p.takeWhile (· ≠ ',')).rdropWhile isBlank
      (splitEq entry).toList ++ parseSpec fuel (p.dropWhile (· ≠ ','))

/-- `variant_map_parse`. -/
def variantMapParse (m : VariantMap) (spec : Text) : VariantMap :=
  (parseSpec spec.length spec).foldl (fun m e => variantMapSet m (fit 64 e.1) (fit 64 e.2)) m

/-! ## The manifest -/

/-- A line as `fgets` with room for `n` characters leaves it, and what is left of the file. -/
def takeLine : Nat → Text → Text × Text
  | 0, s => ([], s)
  | _ + 1, [] => ([], [])
  | n + 1, c :: s =>
    if c = '\n' then ([c], s) else (c :: (takeLine n s).1, (takeLine n s).2)

/-- `while (fgets(line, sizeof(line), f))`. -/
def fgetsLines : Nat → Text → List Text
  | 0, _ => []
  | fuel + 1, s => if s = [] then [] else (takeLine 1023 s).1 :: fgetsLines fuel (takeLine 1023 s).2

/-- `read_value`, up to its limit. -/
def readValue (v : Text) : Text :=
  match v.dropWhile isBlank with
  | '"' :: v => v.takeWhile (· ≠ '"')
  | v => v.takeWhile fun c => c ≠ '#' ∧ c ≠ '\n' ∧ c ≠ '\r' ∧ c ≠ ' ' ∧ c ≠ '\t'

inductive Line
  | skip
  | header (name : Text)
  | setting (key value : Text)

def manifestLine (line : Text) : Line :=
  match line.dropWhile isBlank with
  | [] => .skip
  | c :: p =>
    if c = '#' ∨ c = '\n' ∨ c = '\r' then .skip
    else if c = '[' then
      if ']' ∈ p ∧ p.head? ≠ some ']' then .header (p.takeWhile (· ≠ ']')) else .skip
    else
      match splitEq (c :: p) with
      | none => .skip
      | some (key, value) => .setting (key.rdropWhile isBlank) (readValue value)

/-- `MANIFEST_MAX_TARGETS`. -/
def maxTargets : Nat := 32

structure Manifest where
  declaredTarget : Text
  select : VariantMap
  targets : List (Text × VariantMap)

/-- `variant_map_set` in the table that `manifest_target_map` finds or makes. -/
def setTarget (name key val : Text) : List (Text × VariantMap) → List (Text × VariantMap)
  | [] => [(fit 64 name, variantMapSet [] key val)]
  | t :: ts =>
    if t.1 = name then (t.1, variantMapSet t.2 key val) :: ts else t :: setTarget name key val ts

def targetPrefix : Text := "target.".toList

/-- What `manifest_parse` does with a key of a section. -/
def applySetting (mf : Manifest) (sec key val : Text) : Manifest :=
  if sec = [] then
    if key = "target".toList then { mf with declaredTarget := fit 64 val } else mf
  else if sec = "select".toList then
    if key = [] then mf else { mf with select := variantMapSet mf.select key val }
  else if targetPrefix.isPrefixOf sec then
    let tname := sec.drop 7
    if tname = [] ∨ key = [] then mf
    else if (mf.targets.all fun t => t.1 != tname) ∧ mf.targets.length ≥ maxTargets then mf
    else { mf with targets := setTarget tname key val mf.targets }
  else mf

/-- One round of `manifest_parse`, with the section it is in. -/
def manifestStep (st : Manifest × Text) (line : Text) : Manifest × Text :=
  match manifestLine line with
  | .skip => st
  | .header name => (st.1, fit 64 name)
  | .setting key value => (applySetting st.1 st.2 (fit 64 key) (fit 64 value), st.2)

/-- `manifest_parse`; `none` is a missing file. -/
def manifestParse (text : Option Text) : Manifest :=
  let text := text.getD []
  ((fgetsLines text.length text).foldl manifestStep (⟨[], [], []⟩, [])).1

/-! ## The sources -/

/-- The texts that select variants, and those that name the active target. -/
structure Sources where
  manifest : Option Text
  archeSelect : Option Text
  cliSelect : List Text
  archeTarget : Option Text
  cliTarget : Option Text

/-- A text that is there and not empty. -/
def given (s : Option Text) : Option Text := s.filter (· ≠ [])

section Load

variable (src : Sources)

/-- `g_cli_overrides`. -/
def cliOverrides : VariantMap := src.cliSelect.foldl variantMapParse []

/-- The active target. -/
def active (mf : Manifest) : Option Text :=
  (((given src.cliTarget).map (fit 64)).or (given src.archeTarget)).or
    (given (some mf.declaredTarget))

/-- `variant_map_load_resolved` into an empty map. -/
def variantMapLoadResolved : VariantMap :=
  let mf := manifestParse src.manifest
  let m := variantMapMerge [] mf.select
  let m :=
    match (active src mf).bind fun a => mf.targets.find? fun t => t.1 == a with
    | some t => variantMapMerge m t.2
    | none => m
  let m :=
    match src.archeSelect with
    | some spec => variantMapParse m spec
    | none => m
  variantMapMerge m (cliOverrides src)

end Load

/-! ## What is to be selected -/

/-- The entry of a piece between two commas, without the blanks around it. -/
def mentionOf (piece : Text) : Option (Text × Text) :=
  splitEq ((piece.dropWhile isBlank).rdropWhile isBlank)

/-- An entry without a name mentions no device. -/
def named (ms : List (Text × Text)) : List (Text × Text) := ms.filter (·.1 ≠ [])

/-- The pieces of a text around its commas. -/
def pieces : Text → List Text
  | [] => [[]]
  | c :: s =>
    if c = ',' then [] :: pieces s
    else
      match pieces s with
      | [] => [[c]]
      | p :: ps => (c :: p) :: ps

/-- What a `dev=var` list says. -/
def mentions (spec : Text) : List (Text × Text) := (pieces spec).filterMap mentionOf

/-- The lines of a text with their ends. -/
def textLines : Text → List Text
  | [] => []
  | c :: s =>
    if c = '\n' then [c] :: textLines s
    else
      match textLines s with
      | [] => [[c]]
      | l :: ls => (c :: l) :: ls

structure Setting where
  sec : Text
  key : Text
  value : Text

/-- The settings of a manifest with their sections. -/
def settingsFrom : Text → List Text → List Setting
  | _, [] => []
  | sec, l :: ls =>
    match manifestLine l with
    | .skip => settingsFrom sec ls
    | .header name => settingsFrom name ls
    | .setting key value => ⟨sec, key, value⟩ :: settingsFrom sec ls

def settings (text : Option Text) : List Setting := settingsFrom [] (textLines (text.getD []))

/-- The entries of a table. -/
def tableOf (sec : Text) (ss : List Setting) : List (Text × Text) :=
  (ss.filter (·.sec = sec)).map fun s => (s.key, s.value)

section Resolved

variable (src : Sources)

def selectMentions : List (Text × Text) :=
  named (tableOf "select".toList (settings src.manifest))

/-- `--target`, `ARCHE_TARGET`, or the `target` of the manifest. -/
def activeTarget : Option Text :=
  ((given src.cliTarget).or (given src.archeTarget)).or
    (given (lastOf "target".toList (tableOf [] (settings src.manifest))))

def targetMentions : List (Text × Text) :=
  match activeTarget src with
  | some a => named (tableOf (targetPrefix ++ a) (settings src.manifest))
  | none => []

def envMentions : List (Text × Text) :=
  match src.archeSelect with
  | some spec => named (mentions spec)
  | none => []

def cliMentions : List (Text × Text) := named (src.cliSelect.flatMap mentions)

/-- The last value in the highest source that mentions the device. -/
def resolved (d : Text) : Option Text :=
  (resolve d [cliMentions src, envMentions src, targetMentions src, selectMentions src]).bind chosen

end Resolved

/-! ## Maps -/

theorem lookup_cons (e : Text × Option Text) (m : VariantMap) (d : Text) :
    variantMapLookup (e :: m) d = if e.1 = d then e.2 else variantMapLookup m d := by
  unfold variantMapLookup
  split
  · next hed => rw [List.find?_cons_of_pos (by simpa using hed), Option.bind_some]
  · next hed => rw [List.find?_cons_of_neg (by simpa using hed)]

theorem lookup_replaceItem (device : Text) (v : Option Text) (m : VariantMap) (d : Text) :
    variantMapLookup (replaceItem device v m) d =
      if device = d ∧ (m.any fun e => e.1 == device) = true then v else variantMapLookup m d := by
  induction m with
  | nil => simp [replaceItem]
  | cons e m ih =>
    rw [replaceItem]
    split
    · next he =>
      rw [lookup_cons, lookup_cons, he]
      by_cases hd : device = d <;> simp [hd, he]
    · next he =>
      have hskip : (e.1 == device) = false := beq_eq_false_iff_ne.mpr he
      rw [lookup_cons, lookup_cons, ih, List.any_cons, hskip, Bool.false_or]
      by_cases hed : e.1 = d
      · have hne : device ≠ d := fun h => he (hed.trans h.symm)
        simp [hed, hne]
      · rw [if_neg hed, if_neg hed]

theorem lookup_of_unlisted {m : VariantMap} {d : Text} (h : (m.any fun e => e.1 == d) = false) :
    variantMapLookup m d = none := by
  have hnone : (m.find? fun e => e.1 == d) = none :=
    List.find?_eq_none.mpr fun e he hed => by simp [List.any_eq_false.mp h e he] at hed
  rw [variantMapLookup, hnone, Option.bind_none]

theorem lookup_set (m : VariantMap) (device variant d : Text) :
    variantMapLookup (variantMapSet m device variant) d =
      if device = d ∧ device ≠ [] then chosen variant else variantMapLookup m d := by
  unfold variantMapSet
  split
  · next hempty => rw [if_neg fun h => h.2 hempty]
  next hnonempty =>
  split
  · next hlisted =>
    rw [lookup_replaceItem]
    simp only [hlisted, hnonempty, and_true, ne_eq, not_false_eq_true]
  next hlisted =>
  have hunlisted : (m.any fun e => e.1 == device) = false := Bool.eq_false_iff.mpr hlisted
  split
  · next hclear =>
    split
    · next hd => rw [← hd.1, lookup_of_unlisted hunlisted, hclear, chosen, if_pos rfl]
    · rfl
  · next hvariant =>
    by_cases hd : device = d
    · subst hd
      have hfind : (m.find? fun e => e.1 == device) = none :=
        List.find?_eq_none.mpr fun e he => by simpa using List.any_eq_false.mp hunlisted e he
      simp [variantMapLookup, List.find?_append, hfind, hnonempty, chosen, hvariant]
    · have hskip : (device == d) = false := beq_eq_false_iff_ne.mpr hd
      simp [variantMapLookup, List.find?_append, hd, hskip]

/-- What a map shows after a list of entries. -/
theorem lookup_foldl (ms : List (Text × Text)) (m : VariantMap) (d : Text) :
    variantMapLookup (ms.foldl (fun m e => variantMapSet m e.1 e.2) m) d =
      ((lastOf d (named ms)).map chosen).getD (variantMapLookup m d) := by
  induction ms generalizing m with
  | nil => rfl
  | cons e ms ih =>
    rw [List.foldl_cons, ih, lookup_set, named, named, List.filter_cons]
    by_cases hempty : e.1 = []
    · simp [hempty]
    · by_cases hd : e.1 = d
      · subst hd
        simp only [hempty, ne_eq, not_false_eq_true, decide_true, if_true, and_self, lastOf]
        cases lastOf e.1 (ms.filter fun e => decide ¬e.1 = []) <;> rfl
      · simp only [hempty, hd, ne_eq, not_false_eq_true, decide_true, if_true, false_and, if_false,
          lastOf, Option.or_none]

/-- The entries of a map have names, each one its own, and no empty variant. -/
structure WellFormed (m : VariantMap) : Prop where
  nodup : (m.map Prod.fst).Nodup
  named : ∀ e ∈ m, e.1 ≠ [] ∧ e.2 ≠ some []

theorem keys_replaceItem (device : Text) (v : Option Text) (m : VariantMap) :
    (replaceItem device v m).map Prod.fst = m.map Prod.fst := by
  induction m with
  | nil => rfl
  | cons e m ih =>
    unfold replaceItem
    split
    · next he => rw [List.map_cons, List.map_cons, he]
    · rw [List.map_cons, List.map_cons, ih]

theorem mem_replaceItem {device : Text} {v : Option Text} {m : VariantMap} {e : Text × Option Text}
    (h : e ∈ replaceItem device v m) : e = (device, v) ∨ e ∈ m := by
  induction m with
  | nil => cases h
  | cons e' m ih =>
    unfold replaceItem at h
    split at h
    · rcases List.mem_cons.mp h with rfl | h
      · exact .inl rfl
      · exact .inr (List.mem_cons_of_mem _ h)
    · rcases List.mem_cons.mp h with rfl | h
      · exact .inr List.mem_cons_self
      · exact (ih h).imp_right (List.mem_cons_of_mem _)

theorem chosen_ne (variant : Text) : chosen variant ≠ some [] := by
  unfold chosen
  split
  · exact fun h => nomatch h
  · next hne => exact fun h => hne (Option.some.inj h)

theorem wellFormed_set {m : VariantMap} (h : WellFormed m) (device variant : Text) :
    WellFormed (variantMapSet m device variant) := by
  unfold variantMapSet
  split
  · exact h
  next hnonempty =>
  split
  · refine ⟨by rw [keys_replaceItem]; exact h.nodup, fun e he => ?_⟩
    rcases mem_replaceItem he with rfl | he
    · exact ⟨hnonempty, chosen_ne variant⟩
    · exact h.named e he
  next hlisted =>
  split
  · exact h
  · next hvariant =>
    have hnew : device ∉ m.map Prod.fst := by
      intro hmem
      obtain ⟨e, he, rfl⟩ := List.mem_map.mp hmem
      exact hlisted (List.any_eq_true.mpr ⟨e, he, beq_self_eq_true _⟩)
    refine ⟨?_, fun e he => ?_⟩
    · rw [List.map_append, List.map_singleton]
      exact List.nodup_append.mpr ⟨h.nodup, List.nodup_singleton _, fun a ha b hb hab => by
        have hdevice : a = device := hab.trans (List.mem_singleton.mp hb)
        exact hnew (hdevice ▸ ha)⟩
    · rcases List.mem_append.mp he with he | he
      · exact h.named e he
      · rw [List.mem_singleton.mp he]
        exact ⟨hnonempty, fun h => hvariant (Option.some.inj h)⟩

theorem wellFormed_nil : WellFormed [] := ⟨List.nodup_nil, fun _ he => nomatch he⟩

theorem wellFormed_foldl {ms : List (Text × Text)} {m : VariantMap} (h : WellFormed m) :
    WellFormed (ms.foldl (fun m e => variantMapSet m e.1 e.2) m) := by
  induction ms generalizing m with
  | nil => exact h
  | cons e ms ih => exact ih (wellFormed_set h e.1 e.2)

/-- A device has an entry. -/
def listed (m : VariantMap) (d : Text) : Bool := m.any fun e => e.1 == d

theorem listed_replaceItem (device : Text) (v : Option Text) (m : VariantMap) (d : Text) :
    listed (replaceItem device v m) d = listed m d := by
  have hkeys : ∀ l : VariantMap, listed l d = (l.map Prod.fst).any (· == d) := fun l => by
    rw [List.any_map]
    rfl
  rw [hkeys, hkeys, keys_replaceItem]

theorem listed_set (m : VariantMap) (device variant d : Text) :
    listed (variantMapSet m device variant) d =
      (listed m d || decide (device = d ∧ device ≠ [] ∧ variant ≠ [])) := by
  unfold variantMapSet
  split
  · next hempty => simp [hempty]
  next hnonempty =>
  split
  · next hlisted =>
    rw [listed_replaceItem]
    by_cases hd : device = d
    · subst hd
      have hyes : listed m device = true := hlisted
      rw [hyes, Bool.true_or]
    · simp [hd]
  split
  · next hclear => simp [hclear]
  · next hvariant =>
    rw [listed, List.any_append, List.any_cons, List.any_nil, Bool.or_false, listed]
    congr 1
    rw [Bool.eq_iff_iff, beq_iff_eq, decide_eq_true_iff]
    exact ⟨fun h => ⟨h, hnonempty, hvariant⟩, fun h => h.1⟩

/-- The device is given a variant. -/
def gives (ms : List (Text × Text)) (d : Text) : Bool := ms.any fun e => e.1 == d && e.2 != []

theorem listed_foldl (ms : List (Text × Text)) (m : VariantMap) (d : Text) :
    listed (ms.foldl (fun m e => variantMapSet m e.1 e.2) m) d =
      (listed m d || gives (named ms) d) := by
  induction ms generalizing m with
  | nil => rw [List.foldl_nil, named, List.filter_nil, gives, List.any_nil, Bool.or_false]
  | cons e ms ih =>
    rw [List.foldl_cons, ih, listed_set, named, named, List.filter_cons]
    by_cases hempty : e.1 = []
    · simp [hempty]
    · simp only [hempty, ne_eq, not_false_eq_true, decide_true, if_true, true_and, gives,
        List.any_cons, Bool.or_assoc]
      congr 2
      rw [Bool.eq_iff_iff]
      simp

/-- A merge shows the entries of the second map where it has one. -/
theorem lookup_merge {dst src : VariantMap} (h : WellFormed src) (d : Text) :
    variantMapLookup (variantMapMerge dst src) d =
      if listed src d then variantMapLookup src d else variantMapLookup dst d := by
  have hfold : variantMapMerge dst src =
      (src.map fun e => (e.1, e.2.getD [])).foldl (fun m e => variantMapSet m e.1 e.2) dst := by
    rw [variantMapMerge, List.foldl_map]
  have hnamed : named (src.map fun e => (e.1, e.2.getD [])) =
      src.map fun e => (e.1, e.2.getD []) := by
    refine List.filter_eq_self.mpr fun e he => ?_
    obtain ⟨e', he', rfl⟩ := List.mem_map.mp he
    exact decide_eq_true (h.named e' he').1
  rw [hfold, lookup_foldl, hnamed]
  have hkeys : ((src.map fun e => (e.1, e.2.getD [])).map Prod.fst) = src.map Prod.fst := by
    rw [List.map_map]
    rfl
  cases hlisted : listed src d with
  | false =>
    have hnone : lastOf d (src.map fun e => (e.1, e.2.getD [])) = none := by
      refine (lastOf_eq_none_iff d _).mpr fun e he hed => ?_
      obtain ⟨e', he', rfl⟩ := List.mem_map.mp he
      exact absurd (List.any_eq_false.mp hlisted e' he') (by simpa using hed)
    rw [hnone]
    rfl
  | true =>
    have hsome : (src.find? fun e => e.1 == d).isSome = true := by
      rw [List.find?_isSome]
      exact List.any_eq_true.mp hlisted
    obtain ⟨e, hfind⟩ := Option.isSome_iff_exists.mp hsome
    have he := List.mem_of_find?_eq_some hfind
    have hfound := List.find?_some hfind
    have hed : e.1 = d := beq_iff_eq.mp hfound
    have hmem : (d, e.2.getD []) ∈ src.map fun e => (e.1, e.2.getD []) :=
      List.mem_map.mpr ⟨e, he, by rw [hed]⟩
    have hlast := lastOf_of_mem (hkeys ▸ h.nodup) hmem
    have hlookup : variantMapLookup src d = e.2 := by
      rw [variantMapLookup, hfind, Option.bind_some]
    rw [hlast, hlookup, Option.map_some, Option.getD_some, if_pos rfl]
    cases hv : e.2 with
    | none => rfl
    | some v =>
      have hne : v ≠ [] := fun hnil => (h.named e he).2 (by rw [hv, hnil])
      rw [Option.getD_some, chosen, if_neg hne]

/-! ## Texts without a cut -/

/-- The entries of a list fit their buffers. -/
def EntriesFit (ms : List (Text × Text)) : Prop := ∀ e ∈ ms, e.1.length < 64 ∧ e.2.length < 64

theorem fit_of_lt {n : Nat} {s : Text} (h : s.length < n) : fit n s = s :=
  List.take_of_length_le (by omega)

theorem mentionOf_blank {c : Char} (hc : isBlank c = true) (p : Text) :
    mentionOf (c :: p) = mentionOf p := by
  rw [mentionOf, List.dropWhile_cons_of_pos hc, mentionOf]

theorem pieces_ne_nil (s : Text) : pieces s ≠ [] := by
  cases s with
  | nil => exact List.cons_ne_nil _ _
  | cons c s =>
    unfold pieces
    split
    · exact List.cons_ne_nil _ _
    · split <;> exact List.cons_ne_nil _ _

theorem pieces_cons {c : Char} (hc : c ≠ ',') (s : Text) :
    ∃ p ps, pieces s = p :: ps ∧ pieces (c :: s) = (c :: p) :: ps := by
  cases hs : pieces s with
  | nil => exact absurd hs (pieces_ne_nil s)
  | cons p ps => exact ⟨p, ps, rfl, by rw [pieces, if_neg hc, hs]⟩

/-- The separators in front of an entry are no part of one. -/
theorem mentions_dropWhile (s : Text) : mentions (s.dropWhile isSeparator) = mentions s := by
  induction s with
  | nil => rfl
  | cons c s ih =>
    cases hsep : isSeparator c with
    | false => rw [List.dropWhile_cons_of_neg (by rw [hsep]; decide)]
    | true =>
      rw [List.dropWhile_cons_of_pos hsep, ih]
      by_cases hcomma : c = ','
      · rw [hcomma, mentions, mentions, pieces, if_pos rfl]
        rfl
      · have hblank : isBlank c = true := by
          rw [isSeparator, Bool.or_eq_true, beq_iff_eq] at hsep
          exact hsep.resolve_left hcomma
        obtain ⟨p, ps, hs, hcs⟩ := pieces_cons hcomma s
        rw [mentions, mentions, hs, hcs, List.filterMap_cons, List.filterMap_cons,
          mentionOf_blank hblank]

/-- The piece in front of the first comma. -/
theorem pieces_eq (s : Text) :
    pieces s = s.takeWhile (· ≠ ',') ::
      match s.dropWhile (· ≠ ',') with
      | [] => []
      | _ :: rest => pieces rest := by
  induction s with
  | nil => rfl
  | cons c s ih =>
    by_cases hc : c = ','
    · subst hc
      rw [pieces, if_pos rfl, List.takeWhile_cons_of_neg (by simp),
        List.dropWhile_cons_of_neg (by simp)]
    · rw [pieces, if_neg hc, ih, List.takeWhile_cons_of_pos (by simpa using hc),
        List.dropWhile_cons_of_pos (by simpa using hc)]

theorem parseSpec_eq {fuel : Nat} {s : Text} (h : s.length ≤ fuel) :
    parseSpec fuel s = mentions s := by
  induction fuel generalizing s with
  | zero =>
    rw [List.length_eq_zero_iff.mp (Nat.le_zero.mp h)]
    rfl
  | succ fuel ih =>
    rw [parseSpec, ← mentions_dropWhile s]
    have hle : (s.dropWhile isSeparator).length ≤ s.length := List.length_dropWhile_le _ _
    have hhead : ∀ c ∈ (s.dropWhile isSeparator).head?, isSeparator c = false := fun c hc => by
      have hne := List.head?_dropWhile_not isSeparator s
      rw [hc] at hne
      simpa using hne
    generalize s.dropWhile isSeparator = p at hle hhead ⊢
    dsimp only
    cases p with
    | nil => rfl
    | cons c p =>
      have hc := hhead c rfl
      rw [isSeparator, Bool.or_eq_false_iff, beq_eq_false_iff_ne] at hc
      have htrim : mentionOf ((c :: p).takeWhile (· ≠ ',')) =
          splitEq (((c :: p).takeWhile (· ≠ ',')).rdropWhile isBlank) := by
        rw [mentionOf, List.takeWhile_cons_of_pos (by simpa using hc.1),
          List.dropWhile_cons_of_neg (by rw [hc.2]; decide)]
      have hrest : mentions ((c :: p).dropWhile (· ≠ ',')) =
          (match (c :: p).dropWhile (· ≠ ',') with
            | [] => []
            | _ :: rest => pieces rest).filterMap mentionOf := by
        cases hd : (c :: p).dropWhile (· ≠ ',') with
        | nil => rfl
        | cons d rest =>
          have hcomma : d = ',' := by
            have hne := List.head?_dropWhile_not (fun c : Char => decide (c ≠ ',')) (c :: p)
            rw [hd] at hne
            simpa using hne
          rw [mentions, hcomma, pieces, if_pos rfl]
          rfl
      have hlen : ((c :: p).dropWhile (· ≠ ',')).length ≤ fuel := by
        rw [List.dropWhile_cons_of_pos (by simpa using hc.1)]
        have := List.length_dropWhile_le (fun c : Char => decide (c ≠ ',')) p
        rw [List.length_cons] at hle
        omega
      rw [if_neg (List.cons_ne_nil c p), ih hlen, hrest, mentions, pieces_eq, List.filterMap_cons,
        htrim]
      cases splitEq (((c :: p).takeWhile (· ≠ ',')).rdropWhile isBlank) <;> rfl

/-- Without a cut a `dev=var` list is what it says. -/
theorem variantMapParse_eq {spec : Text} (h : EntriesFit (mentions spec)) (m : VariantMap) :
    variantMapParse m spec =
      (mentions spec).foldl (fun m e => variantMapSet m e.1 e.2) m := by
  rw [variantMapParse, parseSpec_eq (Nat.le_refl _)]
  refine List.foldl_ext _ _ m fun m e he => ?_
  rw [fit_of_lt (h e he).1, fit_of_lt (h e he).2]

/-! ## The manifest without a cut -/

/-- The names of the tables that the settings of targets make. -/
def targetNames (ss : List Setting) : List Text :=
  (ss.filter fun s => targetPrefix.isPrefixOf s.sec && s.sec.drop 7 != [] && s.key != []).map
    (·.sec.drop 7)

/-- The parts of a line fit their buffers. -/
def Line.fits : Line → Bool
  | skip => true
  | header name => name.length < 64
  | setting key value => key.length < 64 && value.length < 64

/-- The lines, names and values of a manifest fit their buffers, and its targets the table. -/
structure ManifestFits (text : Option Text) : Prop where
  lines : ∀ l ∈ textLines (text.getD []), l.length ≤ 1023
  parts : ∀ l ∈ textLines (text.getD []), (manifestLine l).fits = true
  targets : (targetNames (settings text)).dedup.length ≤ maxTargets

theorem textLines_cons {c : Char} (hc : c ≠ '\n') (s : Text) :
    (s = [] ∧ textLines (c :: s) = [[c]]) ∨
      ∃ l ls, textLines s = l :: ls ∧ textLines (c :: s) = (c :: l) :: ls := by
  cases s with
  | nil => exact .inl ⟨rfl, by rw [textLines, if_neg hc, textLines]⟩
  | cons d s =>
    right
    cases hs : textLines (d :: s) with
    | nil =>
      unfold textLines at hs
      split at hs
      · cases hs
      · split at hs <;> cases hs
    | cons l ls => exact ⟨l, ls, rfl, by rw [textLines, if_neg hc, hs]⟩

theorem takeLine_nil (n : Nat) : takeLine n [] = ([], []) := by
  cases n <;> rfl

theorem takeLine_eq {s l : Text} {ls : List Text} {n : Nat} (hs : textLines s = l :: ls)
    (hn : l.length ≤ n) :
    (takeLine n s).1 = l ∧ textLines (takeLine n s).2 = ls ∧
      (takeLine n s).2.length < s.length := by
  induction s generalizing n l with
  | nil => cases hs
  | cons c s ih =>
    by_cases hc : c = '\n'
    · rw [textLines, if_pos hc] at hs
      cases hs
      cases n with
      | zero => cases hn
      | succ n =>
        rw [takeLine, if_pos hc]
        exact ⟨rfl, rfl, Nat.lt_succ_self _⟩
    · rcases textLines_cons hc s with ⟨rfl, hcs⟩ | ⟨l', ls', hs', hcs⟩
      · rw [hcs] at hs
        cases hs
        cases n with
        | zero => cases hn
        | succ n =>
          rw [takeLine, if_neg hc, takeLine_nil]
          exact ⟨rfl, rfl, Nat.lt_succ_self _⟩
      · rw [hcs] at hs
        cases hs
        cases n with
        | zero => cases hn
        | succ n =>
          obtain ⟨hline, hrest, hlen⟩ := ih hs' (Nat.le_of_succ_le_succ hn)
          rw [takeLine, if_neg hc]
          exact ⟨by rw [hline], hrest, Nat.lt_succ_of_lt hlen⟩

theorem fgetsLines_eq {fuel : Nat} {s : Text} (hfuel : s.length ≤ fuel)
    (hlines : ∀ l ∈ textLines s, l.length ≤ 1023) : fgetsLines fuel s = textLines s := by
  induction fuel generalizing s with
  | zero =>
    rw [List.length_eq_zero_iff.mp (Nat.le_zero.mp hfuel)]
    rfl
  | succ fuel ih =>
    rw [fgetsLines]
    split
    · next hs => rw [hs, textLines]
    · next hs =>
      cases htl : textLines s with
      | nil =>
        cases s with
        | nil => exact absurd rfl hs
        | cons c s =>
          unfold textLines at htl
          split at htl
          · cases htl
          · split at htl <;> cases htl
      | cons l ls =>
        rw [htl] at hlines
        obtain ⟨hline, hrest, hlen⟩ := takeLine_eq htl (hlines l List.mem_cons_self)
        have hmore : ∀ l' ∈ textLines (takeLine 1023 s).2, l'.length ≤ 1023 := by
          rw [hrest]
          exact fun l' hl' => hlines l' (List.mem_cons_of_mem l hl')
        rw [hline, ih (by omega) hmore, hrest]

/-- A setting of a manifest that fits. -/
def applyAll (mf : Manifest) (ss : List Setting) : Manifest :=
  ss.foldl (fun mf s => applySetting mf s.sec s.key s.value) mf

theorem foldl_manifestStep {ls : List Text} (hparts : ∀ l ∈ ls, (manifestLine l).fits = true)
    (mf : Manifest) (sec : Text) :
    (ls.foldl manifestStep (mf, sec)).1 = applyAll mf (settingsFrom sec ls) := by
  induction ls generalizing mf sec with
  | nil => rfl
  | cons l ls ih =>
    have hrest := ih fun l' hl' => hparts l' (List.mem_cons_of_mem l hl')
    have hl := hparts l List.mem_cons_self
    rw [List.foldl_cons, manifestStep, settingsFrom]
    cases hline : manifestLine l with
    | skip => exact hrest mf sec
    | header name =>
      rw [hline, Line.fits, decide_eq_true_iff] at hl
      dsimp only
      rw [fit_of_lt hl, hrest]
    | setting key value =>
      rw [hline, Line.fits, Bool.and_eq_true, decide_eq_true_iff, decide_eq_true_iff] at hl
      obtain ⟨hkey, hvalue⟩ := hl
      dsimp only
      rw [fit_of_lt hkey, fit_of_lt hvalue, hrest]
      rfl

theorem manifestParse_eq {text : Option Text} (h : ManifestFits text) :
    manifestParse text = applyAll ⟨[], [], []⟩ (settings text) := by
  rw [manifestParse, fgetsLines_eq (Nat.le_refl _) h.lines]
  exact foldl_manifestStep h.parts _ _

theorem settings_fit {ls : List Text} {sec : Text} (hsec : sec.length < 64)
    (hparts : ∀ l ∈ ls, (manifestLine l).fits = true) :
    ∀ s ∈ settingsFrom sec ls, s.sec.length < 64 ∧ s.value.length < 64 := by
  induction ls generalizing sec with
  | nil => exact fun _ hs => nomatch hs
  | cons l ls ih =>
    have hrest := fun {sec : Text} (hsec : sec.length < 64) =>
      ih hsec fun l' hl' => hparts l' (List.mem_cons_of_mem l hl')
    have hl := hparts l List.mem_cons_self
    rw [settingsFrom]
    cases hline : manifestLine l with
    | skip => exact hrest hsec
    | header name =>
      rw [hline, Line.fits, decide_eq_true_iff] at hl
      exact hrest hl
    | setting key value =>
      rw [hline, Line.fits, Bool.and_eq_true, decide_eq_true_iff, decide_eq_true_iff] at hl
      dsimp only
      intro s hs
      rcases List.mem_cons.mp hs with rfl | hs
      · exact ⟨hsec, hl.2⟩
      · exact hrest hsec s hs

/-! ## The tables of the manifest -/

theorem tableOf_cons (sec : Text) (s : Setting) (ss : List Setting) :
    tableOf sec (s :: ss) =
      if s.sec = sec then (s.key, s.value) :: tableOf sec ss else tableOf sec ss := by
  rw [tableOf, List.filter_cons]
  split
  · next h => rw [if_pos (by simpa using h), List.map_cons, tableOf]
  · next h => rw [if_neg (by simpa using h), tableOf]

theorem set_nil (m : VariantMap) (variant : Text) : variantMapSet m [] variant = m :=
  if_pos rfl

theorem select_applySetting (mf : Manifest) (sec key val : Text) :
    (applySetting mf sec key val).select =
      if sec = "select".toList then variantMapSet mf.select key val else mf.select := by
  unfold applySetting
  by_cases hsel : sec = "select".toList
  · subst hsel
    rw [if_neg (by decide), if_pos rfl, if_pos rfl]
    split
    · next hkey => rw [hkey, set_nil]
    · rfl
  · rw [if_neg hsel, if_neg hsel]
    split
    · split <;> rfl
    · split
      · dsimp only
        split
        · rfl
        · split <;> rfl
      · rfl

theorem declared_applySetting (mf : Manifest) (sec key : Text) {val : Text}
    (hval : val.length < 64) :
    (applySetting mf sec key val).declaredTarget =
      if sec = [] ∧ key = "target".toList then val else mf.declaredTarget := by
  unfold applySetting
  by_cases htop : sec = []
  · rw [if_pos htop]
    by_cases hkey : key = "target".toList
    · rw [if_pos hkey, if_pos ⟨htop, hkey⟩, fit_of_lt hval]
    · rw [if_neg hkey, if_neg fun h => hkey h.2]
  · have hno : ¬ (sec = [] ∧ key = "target".toList) := fun h => htop h.1
    rw [if_neg htop, if_neg hno]
    split
    · split <;> rfl
    · split
      · dsimp only
        split
        · rfl
        · split <;> rfl
      · rfl

theorem applyAll_cons (mf : Manifest) (s : Setting) (ss : List Setting) :
    applyAll mf (s :: ss) = applyAll (applySetting mf s.sec s.key s.value) ss := rfl

theorem select_applyAll (ss : List Setting) (mf : Manifest) :
    (applyAll mf ss).select =
      (tableOf "select".toList ss).foldl (fun m e => variantMapSet m e.1 e.2) mf.select := by
  induction ss generalizing mf with
  | nil => rfl
  | cons s ss ih =>
    rw [applyAll_cons, ih, select_applySetting, tableOf_cons]
    split <;> rfl

theorem declared_applyAll {ss : List Setting} (hfit : ∀ s ∈ ss, s.value.length < 64)
    (mf : Manifest) :
    (applyAll mf ss).declaredTarget =
      (lastOf "target".toList (tableOf [] ss)).getD mf.declaredTarget := by
  induction ss generalizing mf with
  | nil => rfl
  | cons s ss ih =>
    rw [applyAll_cons, ih fun s' hs' => hfit s' (List.mem_cons_of_mem s hs'),
      declared_applySetting mf _ _ (hfit s List.mem_cons_self), tableOf_cons]
    by_cases htop : s.sec = []
    · rw [if_pos htop, lastOf]
      simp only [htop, true_and]
      cases lastOf "target".toList (tableOf [] ss) with
      | some v => rfl
      | none => split <;> rfl
    · rw [if_neg htop, if_neg fun h => htop h.1]

/-- The table of a target, empty if there is none. -/
def targetTable (ts : List (Text × VariantMap)) (name : Text) : VariantMap :=
  ((ts.find? fun t => t.1 == name).map (·.2)).getD []

theorem targetTable_cons (t : Text × VariantMap) (ts : List (Text × VariantMap)) (name : Text) :
    targetTable (t :: ts) name = if t.1 = name then t.2 else targetTable ts name := by
  unfold targetTable
  split
  · next h => rw [List.find?_cons_of_pos (by simpa using h)]; rfl
  · next h => rw [List.find?_cons_of_neg (by simpa using h)]

theorem targetTable_setTarget {name : Text} (hname : name.length < 64) (key val : Text)
    (ts : List (Text × VariantMap)) (other : Text) :
    targetTable (setTarget name key val ts) other =
      if name = other then variantMapSet (targetTable ts other) key val
      else targetTable ts other := by
  induction ts with
  | nil =>
    rw [setTarget, fit_of_lt hname, targetTable_cons]
    rfl
  | cons t ts ih =>
    rw [setTarget]
    split
    · next ht =>
      rw [targetTable_cons, targetTable_cons, ht]
      split <;> rfl
    · next ht =>
      rw [targetTable_cons, targetTable_cons, ih]
      by_cases hother : t.1 = other
      · rw [if_pos hother, if_pos hother, if_neg fun h => ht (hother.trans h.symm)]
      · rw [if_neg hother, if_neg hother]

theorem names_setTarget {name : Text} (hname : name.length < 64) (key val : Text)
    (ts : List (Text × VariantMap)) :
    (setTarget name key val ts).map Prod.fst =
      if name ∈ ts.map Prod.fst then ts.map Prod.fst else ts.map Prod.fst ++ [name] := by
  induction ts with
  | nil => rw [setTarget, fit_of_lt hname]; rfl
  | cons t ts ih =>
    rw [setTarget]
    split
    · next ht =>
      rw [List.map_cons, List.map_cons, ht, if_pos List.mem_cons_self]
    · next ht =>
      rw [List.map_cons, ih, List.map_cons]
      by_cases hin : name ∈ ts.map Prod.fst
      · rw [if_pos hin, if_pos (List.mem_cons_of_mem _ hin)]
      · have hnot : name ∉ t.1 :: ts.map Prod.fst := by
          rintro hmem
          rcases List.mem_cons.mp hmem with h | h
          · exact ht h.symm
          · exact hin h
        rw [if_neg hin, if_neg hnot, List.cons_append]

theorem prefix_drop {sec : Text} (h : targetPrefix.isPrefixOf sec = true) :
    targetPrefix ++ sec.drop 7 = sec := by
  obtain ⟨t, rfl⟩ := List.isPrefixOf_iff_prefix.mp h
  rfl

/-- The tables that are there have names of their own, all of them among `all`. -/
structure Tables (all : List Text) (ts : List (Text × VariantMap)) : Prop where
  nodup : (ts.map Prod.fst).Nodup
  among : ∀ n ∈ ts.map Prod.fst, n ∈ all

/-- There is room for one more name. -/
theorem Tables.room {all : List Text} {ts : List (Text × VariantMap)} (h : Tables all ts)
    (hall : all.dedup.length ≤ maxTargets) {name : Text} (hname : name ∈ all)
    (hnew : name ∉ ts.map Prod.fst) : ts.length < maxTargets := by
  have hnodup : (name :: ts.map Prod.fst).Nodup := List.nodup_cons.mpr ⟨hnew, h.nodup⟩
  have hsub : name :: ts.map Prod.fst ⊆ all.dedup := by
    intro n hn
    rcases List.mem_cons.mp hn with rfl | hn
    · exact List.mem_dedup.mpr hname
    · exact List.mem_dedup.mpr (h.among n hn)
  have hlen := (List.subperm_of_subset hnodup hsub).length_le
  rw [List.length_cons, List.length_map] at hlen
  omega

theorem targets_applyAll {all : List Text} (hall : all.dedup.length ≤ maxTargets)
    {ss : List Setting} (hnames : ∀ n ∈ targetNames ss, n ∈ all)
    (hfit : ∀ s ∈ ss, s.sec.length < 64) (mf : Manifest) (hmf : Tables all mf.targets)
    {name : Text} (hne : name ≠ []) :
    targetTable (applyAll mf ss).targets name =
      (tableOf (targetPrefix ++ name) ss).foldl (fun m e => variantMapSet m e.1 e.2)
        (targetTable mf.targets name) := by
  induction ss generalizing mf with
  | nil => rfl
  | cons s ss ih =>
    have hrest := ih
      (fun n hn => hnames n (by
        rw [targetNames, List.filter_cons]
        split
        · exact List.mem_cons_of_mem _ hn
        · exact hn))
      fun s' hs' => hfit s' (List.mem_cons_of_mem s hs')
    have hsame : ∀ mf' : Manifest, mf'.targets = mf.targets → s.sec ≠ targetPrefix ++ name →
        targetTable (applyAll mf' ss).targets name =
          (tableOf (targetPrefix ++ name) (s :: ss)).foldl (fun m e => variantMapSet m e.1 e.2)
            (targetTable mf.targets name) := by
      intro mf' hts hother
      rw [hrest mf' (hts ▸ hmf), tableOf_cons, if_neg hother, hts]
    rw [applyAll_cons]
    unfold applySetting
    by_cases htop : s.sec = []
    · have hother : s.sec ≠ targetPrefix ++ name := by rw [htop]; exact fun h => nomatch h
      rw [if_pos htop]
      split <;> exact hsame _ rfl hother
    rw [if_neg htop]
    by_cases hsel : s.sec = "select".toList
    · have hother : s.sec ≠ targetPrefix ++ name := by rw [hsel]; exact fun h => nomatch h
      rw [if_pos hsel]
      split <;> exact hsame _ rfl hother
    rw [if_neg hsel]
    split
    · next hopen =>
      have hsec := prefix_drop hopen
      dsimp only
      split
      · next hnone =>
        by_cases hthis : s.sec = targetPrefix ++ name
        · have hdrop : s.sec.drop 7 = name := by rw [hthis]; rfl
          have hkey : s.key = [] := hnone.resolve_left fun h => hne (hdrop ▸ h)
          rw [hrest mf hmf, tableOf_cons, if_pos hthis, List.foldl_cons, hkey, set_nil]
        · exact hsame mf rfl hthis
      next hgoes =>
      obtain ⟨htname, hkey⟩ := not_or.mp hgoes
      have hmem : s.sec.drop 7 ∈ all := by
        refine hnames _ ?_
        rw [targetNames, List.filter_cons, if_pos (by simp [hopen, htname, hkey])]
        exact List.mem_cons_self
      split
      · next hfull =>
        have hnew : s.sec.drop 7 ∉ mf.targets.map Prod.fst := by
          intro hin
          obtain ⟨t, ht, heq⟩ := List.mem_map.mp hin
          have hno := List.all_eq_true.mp hfull.1 t ht
          simp [heq] at hno
        have := hmf.room hall hmem hnew
        omega
      · have hlen : (s.sec.drop 7).length < 64 := by
          have := hfit s List.mem_cons_self
          rw [List.length_drop]
          omega
        have htables : Tables all (setTarget (s.sec.drop 7) s.key s.value mf.targets) := by
          constructor
          · rw [names_setTarget hlen]
            split
            · exact hmf.nodup
            · next hnew =>
              refine List.nodup_append.mpr ⟨hmf.nodup, List.nodup_singleton _, ?_⟩
              intro a ha b hb hab
              rw [List.mem_singleton.mp hb] at hab
              exact hnew (hab ▸ ha)
          · rw [names_setTarget hlen]
            split
            · exact hmf.among
            · intro n hn
              rcases List.mem_append.mp hn with hn | hn
              · exact hmf.among n hn
              · rw [List.mem_singleton.mp hn]
                exact hmem
        rw [hrest _ htables, tableOf_cons, targetTable_setTarget hlen]
        by_cases hthis : s.sec = targetPrefix ++ name
        · have hdrop : s.sec.drop 7 = name := by rw [hthis]; rfl
          rw [if_pos hthis, if_pos hdrop]
          rfl
        · have hdrop : s.sec.drop 7 ≠ name := fun h => hthis (by rw [← h, hsec])
          rw [if_neg hthis, if_neg hdrop]
    · next hopen =>
      have hother : s.sec ≠ targetPrefix ++ name := by
        rintro h
        exact hopen (by rw [h]; exact List.isPrefixOf_iff_prefix.mpr (List.prefix_append _ _))
      exact hsame mf rfl hother

/-! ## The sources together -/

/-- No name, value or line of the sources is cut. -/
structure Fits (src : Sources) : Prop where
  manifest : ManifestFits src.manifest
  archeSelect : ∀ spec ∈ src.archeSelect, EntriesFit (mentions spec)
  cliSelect : ∀ spec ∈ src.cliSelect, EntriesFit (mentions spec)
  cliTarget : ∀ name ∈ src.cliTarget, name.length < 64

/-- What a list of entries selects. -/
def shown (ms : List (Text × Text)) (d : Text) : Option Text := (lastOf d ms).bind chosen

/-- What is selected below `--select`. -/
def shownBelow (src : Sources) (d : Text) : Option Text :=
  ((lastOf d (envMentions src)).map chosen).getD
    (if gives (targetMentions src) d then shown (targetMentions src) d
      else shown (selectMentions src) d)

/-- The device is mentioned with empty values only. -/
def OnlyCleared (ms : List (Text × Text)) (d : Text) : Prop :=
  lastOf d ms ≠ none ∧ gives ms d = false

/-- A device that `--select` mentions with empty values only is not selected below. Nor does
`[select]` select one that the table of the active target mentions so, and no higher source. -/
def ClearsKept (src : Sources) : Prop :=
  ∀ d, (OnlyCleared (cliMentions src) d → shownBelow src d = none) ∧
    (lastOf d (cliMentions src) = none → lastOf d (envMentions src) = none →
      OnlyCleared (targetMentions src) d → shown (selectMentions src) d = none)

theorem lastOf_of_gives {ms : List (Text × Text)} {d : Text} (h : gives ms d = true) :
    lastOf d ms ≠ none := by
  intro hnone
  obtain ⟨e, he, hed⟩ := List.any_eq_true.mp h
  rw [Bool.and_eq_true, beq_iff_eq] at hed
  exact (lastOf_eq_none_iff d ms).mp hnone e he hed.1

/-- The last of values that are all empty. -/
theorem lastOf_of_onlyCleared {ms : List (Text × Text)} {d : Text} (h : OnlyCleared ms d) :
    lastOf d ms = some [] := by
  obtain ⟨hsome, hgives⟩ := h
  induction ms with
  | nil => exact absurd rfl hsome
  | cons e ms ih =>
    rw [gives, List.any_cons, Bool.or_eq_false_iff] at hgives
    rw [lastOf] at hsome ⊢
    cases hlast : lastOf d ms with
    | some v =>
      have hrest := ih (by rw [hlast]; simp) hgives.2
      rw [hlast] at hrest
      rw [hrest, Option.some_or]
    | none =>
      rw [hlast, Option.none_or] at hsome
      rw [Option.none_or]
      split at hsome
      · next hed =>
        have hempty : e.2 = [] := by simpa [hed] using hgives.1
        rw [if_pos hed, hempty]
      · exact absurd rfl hsome

theorem getD_map_chosen (o : Option Text) : (o.map chosen).getD none = o.bind chosen := by
  cases o <;> rfl

theorem lookup_nil (d : Text) : variantMapLookup [] d = none := rfl

/-- A map that a list of entries makes. -/
theorem lookup_entries (ms : List (Text × Text)) (d : Text) :
    variantMapLookup (ms.foldl (fun m e => variantMapSet m e.1 e.2) []) d = shown (named ms) d := by
  rw [lookup_foldl, lookup_nil, getD_map_chosen, shown]

theorem listed_entries (ms : List (Text × Text)) (d : Text) :
    listed (ms.foldl (fun m e => variantMapSet m e.1 e.2) []) d = gives (named ms) d := by
  rw [listed_foldl]
  rfl

theorem foldl_parse {specs : List Text} (h : ∀ spec ∈ specs, EntriesFit (mentions spec))
    (m : VariantMap) :
    specs.foldl variantMapParse m =
      (specs.flatMap mentions).foldl (fun m e => variantMapSet m e.1 e.2) m := by
  induction specs generalizing m with
  | nil => rfl
  | cons spec specs ih =>
    rw [List.foldl_cons, ih fun s hs => h s (List.mem_cons_of_mem spec hs),
      variantMapParse_eq (h spec List.mem_cons_self), List.flatMap_cons, List.foldl_append]

section Loaded

variable {src : Sources} (hfits : Fits src)

include hfits

theorem active_eq : active src (manifestParse src.manifest) = activeTarget src := by
  have hempty : ([] : Text).length < 64 := by decide
  have hvalues := settings_fit hempty hfits.manifest.parts
  have hdeclared : (manifestParse src.manifest).declaredTarget =
      (lastOf "target".toList (tableOf [] (settings src.manifest))).getD [] := by
    rw [manifestParse_eq hfits.manifest]
    exact declared_applyAll (fun s hs => (hvalues s hs).2) _
  have hgiven : given (some (manifestParse src.manifest).declaredTarget) =
      given (lastOf "target".toList (tableOf [] (settings src.manifest))) := by
    rw [hdeclared]
    cases lastOf "target".toList (tableOf [] (settings src.manifest)) <;> rfl
  have hcli : (given src.cliTarget).map (fit 64) = given src.cliTarget := by
    cases hc : src.cliTarget with
    | none => rfl
    | some name =>
      have hname := fit_of_lt (hfits.cliTarget name hc)
      unfold given
      rw [Option.filter_some]
      split
      · rw [Option.map_some, hname]
      · rfl
  rw [active, hgiven, hcli, activeTarget]

/-- The table of the active target. -/
theorem merge_target (m : VariantMap) (d : Text) :
    variantMapLookup
        (match (active src (manifestParse src.manifest)).bind fun a =>
            (manifestParse src.manifest).targets.find? fun t => t.1 == a with
          | some t => variantMapMerge m t.2
          | none => m) d =
      if gives (targetMentions src) d then shown (targetMentions src) d
      else variantMapLookup m d := by
  rw [active_eq hfits, targetMentions]
  cases ha : activeTarget src with
  | none => rfl
  | some a =>
    have hne : a ≠ [] := by
      have hgiven : ∀ o : Option Text, ∀ t ∈ given o, t ≠ [] := fun o t ht => by
        simpa using (Option.filter_eq_some_iff.mp ht).2
      rcases Option.or_eq_some_iff.mp ha with h | ⟨-, h⟩
      · rcases Option.or_eq_some_iff.mp h with h | ⟨-, h⟩
        · exact hgiven _ a h
        · exact hgiven _ a h
      · exact hgiven _ a h
    have hempty : ([] : Text).length < 64 := by decide
    have hvalues := settings_fit hempty hfits.manifest.parts
    have htable : targetTable (manifestParse src.manifest).targets a =
        (tableOf (targetPrefix ++ a) (settings src.manifest)).foldl
          (fun m e => variantMapSet m e.1 e.2) [] := by
      rw [manifestParse_eq hfits.manifest]
      exact targets_applyAll hfits.manifest.targets (fun _ hn => hn)
        (fun s hs => (hvalues s hs).1) ⟨[], [], []⟩ ⟨List.nodup_nil, fun _ hn => nomatch hn⟩ hne
    rw [Option.bind_some]
    dsimp only
    cases hfind : (manifestParse src.manifest).targets.find? fun t => t.1 == a with
    | none =>
      have hempty : targetTable (manifestParse src.manifest).targets a = [] := by
        rw [targetTable, hfind]
        rfl
      have hno : gives (named (tableOf (targetPrefix ++ a) (settings src.manifest))) d = false := by
        rw [← listed_entries, ← htable, hempty]
        rfl
      dsimp only
      rw [hno]
      rfl
    | some t =>
      have hmap : t.2 = (tableOf (targetPrefix ++ a) (settings src.manifest)).foldl
          (fun m e => variantMapSet m e.1 e.2) [] := by
        rw [← htable, targetTable, hfind]
        rfl
      dsimp only
      rw [hmap, lookup_merge (wellFormed_foldl wellFormed_nil), listed_entries, lookup_entries]

/-- What a lookup gives, source by source. -/
theorem lookup_loadResolved (d : Text) :
    variantMapLookup (variantMapLoadResolved src) d =
      if gives (cliMentions src) d then shown (cliMentions src) d else shownBelow src d := by
  have hcli : cliOverrides src =
      (src.cliSelect.flatMap mentions).foldl (fun m e => variantMapSet m e.1 e.2) [] :=
    foldl_parse hfits.cliSelect []
  have hselect : (manifestParse src.manifest).select =
      (tableOf "select".toList (settings src.manifest)).foldl
        (fun m e => variantMapSet m e.1 e.2) [] := by
    rw [manifestParse_eq hfits.manifest]
    exact select_applyAll _ _
  have hbase : variantMapLookup (variantMapMerge [] (manifestParse src.manifest).select) d =
      shown (selectMentions src) d := by
    rw [hselect, lookup_merge (wellFormed_foldl wellFormed_nil), lookup_entries, lookup_nil,
      selectMentions]
    split
    · rfl
    · next hno =>
      rw [← lookup_entries]
      exact (lookup_of_unlisted (Bool.eq_false_iff.mpr hno)).symm
  rw [variantMapLoadResolved, hcli, lookup_merge (wellFormed_foldl wellFormed_nil), listed_entries,
    lookup_entries, cliMentions]
  congr 1
  rw [shownBelow, envMentions]
  cases henv : src.archeSelect with
  | none =>
    dsimp only
    rw [merge_target hfits, hbase]
    rfl
  | some spec =>
    dsimp only
    rw [variantMapParse_eq (hfits.archeSelect spec henv), lookup_foldl, merge_target hfits, hbase]

end Loaded

/-- The same for one device. -/
theorem lookup_eq_resolved_iff {src : Sources} (hfits : Fits src) (d : Text) :
    variantMapLookup (variantMapLoadResolved src) d = resolved src d ↔
      (OnlyCleared (cliMentions src) d → shownBelow src d = none) ∧
        (lastOf d (cliMentions src) = none → lastOf d (envMentions src) = none →
          OnlyCleared (targetMentions src) d → shown (selectMentions src) d = none) := by
  rw [lookup_loadResolved hfits, resolved, resolve]
  cases hgives : gives (cliMentions src) d with
  | true =>
    -- A value of `--select` counts in both.
    obtain ⟨v, hv⟩ := Option.ne_none_iff_exists'.mp (lastOf_of_gives hgives)
    have hno : ¬ OnlyCleared (cliMentions src) d := fun h => by
      rw [h.2] at hgives
      cases hgives
    rw [if_pos rfl, shown, hv, Option.some_or]
    exact iff_of_true rfl ⟨fun h => absurd h hno, fun h => (nomatch h)⟩
  | false =>
    rw [if_neg Bool.false_ne_true]
    cases hcli : lastOf d (cliMentions src) with
    | some v =>
      have honly : OnlyCleared (cliMentions src) d :=
        ⟨by rw [hcli]; exact fun h => (nomatch h), hgives⟩
      have hv : v = [] := Option.some.inj (hcli.symm.trans (lastOf_of_onlyCleared honly))
      rw [Option.some_or, Option.bind_some, hv, chosen, if_pos rfl]
      exact ⟨fun h => ⟨fun _ => h, fun h => (nomatch h)⟩, fun h => h.1 honly⟩
    | none =>
      have hno : ¬ OnlyCleared (cliMentions src) d := fun h => h.1 hcli
      rw [Option.none_or, shownBelow, resolve]
      cases henv : lastOf d (envMentions src) with
      | some v =>
        rw [Option.some_or, Option.map_some, Option.getD_some, Option.bind_some]
        exact iff_of_true rfl ⟨fun h => absurd h hno, fun _ h => (nomatch h)⟩
      | none =>
        rw [Option.map_none, Option.getD_none, Option.none_or, resolve, resolve, resolve,
          Option.or_none]
        cases htarget : gives (targetMentions src) d with
        | true =>
          obtain ⟨v, hv⟩ := Option.ne_none_iff_exists'.mp (lastOf_of_gives htarget)
          have hnot : ¬ OnlyCleared (targetMentions src) d := fun h => by
            rw [h.2] at htarget
            cases htarget
          rw [if_pos rfl, shown, hv, Option.some_or]
          exact iff_of_true rfl ⟨fun h => absurd h hno, fun _ _ h => absurd h hnot⟩
        | false =>
          rw [if_neg Bool.false_ne_true]
          cases hlast : lastOf d (targetMentions src) with
          | some v =>
            have honly : OnlyCleared (targetMentions src) d :=
              ⟨by rw [hlast]; exact fun h => (nomatch h), htarget⟩
            have hv : v = [] := Option.some.inj (hlast.symm.trans (lastOf_of_onlyCleared honly))
            rw [Option.some_or, Option.bind_some, hv, chosen, if_pos rfl]
            exact ⟨fun h => ⟨fun h => absurd h hno, fun _ _ _ => h⟩, fun h => h.2 rfl rfl honly⟩
          | none =>
            have hnot : ¬ OnlyCleared (targetMentions src) d := fun h => h.1 hlast
            rw [Option.none_or]
            exact iff_of_true rfl ⟨fun h => absurd h hno, fun _ _ h => absurd h hnot⟩

/-- Where all fits, a lookup gives the resolved variant if and only if no clearing gets lost. -/
theorem lookup_resolved_iff {src : Sources} (hfits : Fits src) :
    (∀ d, variantMapLookup (variantMapLoadResolved src) d = resolved src d) ↔ ClearsKept src :=
  forall_congr' fun d => lookup_eq_resolved_iff hfits d

/-! ## A device that is to be cleared -/

/-- `[select]` chooses a variant, `--select` clears it. -/
def clearedSources (spec : Text) : Sources where
  manifest := some "[select]\nnet = \"tcp\"\n".toList
  archeSelect := none
  cliSelect := [spec]
  archeTarget := none
  cliTarget := none

theorem lookup_resolved_iff_udp :
    (∀ d, variantMapLookup (variantMapLoadResolved (clearedSources "net=udp".toList)) d =
      resolved (clearedSources "net=udp".toList) d) ↔
      ClearsKept (clearedSources "net=udp".toList) := by
  refine lookup_resolved_iff ⟨⟨by decide, by decide, by decide⟩, fun _ h => (nomatch h), ?_,
    fun _ h => (nomatch h)⟩
  intro spec hspec
  have hmentions : mentions "net=udp".toList = [("net".toList, "udp".toList)] := by decide
  rw [List.mem_singleton.mp hspec, EntriesFit, hmentions]
  decide

theorem not_lookup_resolved : ¬ ∀ (src : Sources) (d : Text),
    variantMapLookup (variantMapLoadResolved src) d = resolved src d := by
  intro h
  have hwrong := h (clearedSources "net=".toList) "net".toList
  revert hwrong
  decide

end Arche.Compile.VariantSelect
