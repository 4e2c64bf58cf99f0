import Arche.Lib.Lines
import Arche.Lib.Words

/-!
# The check of shared definitions

The linker keeps one of the `linkonce_odr` definitions of a symbol, so those of different units must
be the same. `verify_odr` reads the units' modules line by line and compares the definitions that
have the same name.

* A unit whose file cannot be opened is skipped. The line buffer has 8192 bytes; no file has a NUL.
* `Item`, `Module` and `Module.text` are what code generation writes, as far as the check looks at
  it.

1. `definitions_text`: the check finds the shared definitions of a module, and nothing else.
2. `verifyOdr_iff`: it passes if and only if definitions with the same name are the same text.
-/

namespace Arche.Compile.OdrCheck

open Arche.Lib

abbrev Text := List Char

def definePrefix : Text := "define linkonce_odr ".toList

/-- The text after the first `c`, as `strchr` finds it. -/
def after (c : Char) : Text → Option Text
  | [] => none
  | d :: t => if d = c then some t else after c t

/-- The symbol of a `define` line: what stands between `@` and the next parenthesis. -/
def symbolOf (line : Text) : Option Text := do
  let rest ← after '@' line
  let _ ← after '(' rest
  pure (rest.takeWhile (· ≠ '('))

/-- The loop that accumulates a body: the lines up to the one that begins with `}`, and the lines
that are left. -/
def body : Text → List Text → Text × List Text
  | line, [] => (line, [])
  | line, next :: rest =>
    if line.head? = some '}' then (line, next :: rest)
    else (line ++ (body next rest).1, (body next rest).2)

theorem length_body (line : Text) (rest : List Text) : (body line rest).2.length ≤ rest.length := by
  induction rest generalizing line with
  | nil => exact Nat.le_refl 0
  | cons next rest ih =>
    rw [body]
    split
    next => exact Nat.le_refl _
    next => exact Nat.le_succ_of_le (ih next)

/-- The definitions that the loop over a file's lines finds. -/
def definitions : List Text → List (Text × Text)
  | [] => []
  | line :: rest =>
    if definePrefix.isPrefixOf line then
      match symbolOf line with
      | some sym => (sym, (body line rest).1) :: definitions (body line rest).2
      | none => definitions rest
    else definitions rest
termination_by lines => lines.length
decreasing_by
  · exact Nat.lt_succ_of_le (length_body line rest)
  · exact Nat.lt_succ_self _
  · exact Nat.lt_succ_self _

/-- The tables of symbols and bodies, and `bad`. -/
structure Found where
  bodies : List (Text × Text) := []
  bad : Bool := false

def Found.add (s : Found) (d : Text × Text) : Found :=
  match s.bodies.lookup d.1 with
  | some text => if text ≠ d.2 then { s with bad := true } else s
  | none => { s with bodies := s.bodies ++ [d] }

/-- `verify_odr` on the files of the units, in order: true when a definition differs. -/
def verifyOdr (files : List (Option Text)) : Bool :=
  (files.foldl (fun s f => match f with
    | none => s
    | some text => (definitions (fileLines 8191 text)).foldl Found.add s) {}).bad

/-! ## Modules -/

/-- A line of a module, or a shared definition: the parts of its first line around the symbol, and
the lines of its body. -/
inductive Item
  | line (text : Text)
  | shared (pre sym post : Text) (lines : List Text)

abbrev Module := List Item

def Item.lines : Item → List Text
  | .line text => [text]
  | .shared pre sym post lines =>
    (definePrefix ++ pre ++ '@' :: sym ++ '(' :: post) :: lines ++ [['}']]

def Item.definition? : Item → Option (Text × Text)
  | .line _ => none
  | .shared pre sym post lines => some (sym, unlines (Item.shared pre sym post lines).lines)

def Module.text (m : Module) : Text := unlines (m.flatMap Item.lines)

/-- The shared definitions of a module: symbol and text. -/
def Module.shared (m : Module) : List (Text × Text) := m.filterMap Item.definition?

/-- A definition begins where a line begins, its first line names it before anything else that has
an `@` or a parenthesis, and a line that begins with `}` ends it. -/
def Item.WellFormed : Item → Prop
  | .line text => ¬definePrefix <+: text
  | .shared pre sym _ lines => '@' ∉ pre ∧ '(' ∉ sym ∧ ∀ l ∈ lines, l.head? ≠ some '}'

instance : DecidablePred Item.WellFormed
  | .line text => inferInstanceAs (Decidable (¬definePrefix <+: text))
  | .shared pre sym _ lines =>
    inferInstanceAs (Decidable ('@' ∉ pre ∧ '(' ∉ sym ∧ ∀ l ∈ lines, l.head? ≠ some '}'))

/-- No line is longer than the buffer. -/
def Module.WellFormed (m : Module) : Prop :=
  ∀ item ∈ m, item.WellFormed ∧ ∀ l ∈ item.lines, '\n' ∉ l ∧ l.length < 8191

instance (m : Module) : Decidable m.WellFormed :=
  inferInstanceAs (Decidable (∀ item ∈ m, item.WellFormed ∧ ∀ l ∈ item.lines, _ ∧ _))

/-! ## What is found -/

theorem after_eq {c : Char} {x : Text} (hx : c ∉ x) (t : Text) : after c (x ++ c :: t) = some t := by
  induction x with
  | nil => exact if_pos rfl
  | cons d x ih =>
    rw [List.mem_cons, not_or] at hx
    rw [List.cons_append, after, if_neg (Ne.symm hx.1), ih hx.2]

theorem takeWhile_ne {c : Char} {x : Text} (hx : c ∉ x) (t : Text) :
    (x ++ c :: t).takeWhile (· ≠ c) = x := by
  rw [List.takeWhile_append_of_pos fun d hd => by
    simpa using fun heq : d = c => hx (heq ▸ hd)]
  simp

theorem symbolOf_eq {pre sym : Text} (hpre : '@' ∉ pre) (hsym : '(' ∉ sym) (post : Text) :
    symbolOf (definePrefix ++ pre ++ '@' :: sym ++ '(' :: post) = some sym := by
  have hat : '@' ∉ definePrefix ++ pre := by
    rw [List.mem_append, not_or]
    exact ⟨by decide, hpre⟩
  have hline : definePrefix ++ pre ++ '@' :: sym ++ '(' :: post =
      definePrefix ++ pre ++ '@' :: (sym ++ '(' :: post) := by simp
  simp only [symbolOf, hline, after_eq hat, after_eq hsym, takeWhile_ne hsym, Option.bind_eq_bind,
    Option.bind_some, Option.pure_def]

theorem body_eq (line : Text) (lines : List Text) {last : Text} (hline : line.head? ≠ some '}')
    (hlines : ∀ l ∈ lines, l.head? ≠ some '}') (hlast : last.head? = some '}') (rest : List Text) :
    body line (lines ++ last :: rest) = ((line :: lines ++ [last]).flatten, rest) := by
  induction lines generalizing line with
  | nil =>
    have hbody : body last rest = (last, rest) := by
      cases rest with
      | nil => rfl
      | cons next rest => rw [body, if_pos hlast]
    rw [List.nil_append, body, if_neg hline, hbody]
    simp
  | cons l lines ih =>
    rw [List.cons_append, body, if_neg hline,
      ih l (hlines l List.mem_cons_self) fun l' hl' => hlines l' (List.mem_cons_of_mem _ hl')]
    simp

theorem head?_newline {l : Text} {c : Char} (hc : c ≠ '\n') (h : l.head? ≠ some c) :
    (l ++ ['\n']).head? ≠ some c := by
  cases l with
  | nil => simpa using Ne.symm hc
  | cons d l => exact h

/-- A line that is not the first of a definition is passed over. -/
theorem definitions_line {text : Text} (h : ¬definePrefix <+: text) (rest : List Text) :
    definitions ((text ++ ['\n']) :: rest) = definitions rest := by
  have hnot : ¬definePrefix.isPrefixOf (text ++ ['\n']) = true := by
    rw [List.isPrefixOf_iff_prefix]
    intro hpre
    rw [List.prefix_concat_iff] at hpre
    refine hpre.elim (fun heq => ?_) h
    have hlast := congrArg List.getLast? heq
    rw [List.getLast?_concat] at hlast
    exact absurd hlast (by decide)
  rw [definitions, if_neg hnot]

theorem definitions_shared {pre sym : Text} {lines : List Text} (hpre : '@' ∉ pre) (hsym : '(' ∉ sym)
    (hlines : ∀ l ∈ lines, l.head? ≠ some '}') (post : Text) (rest : List Text) :
    definitions ((Item.shared pre sym post lines).lines.map (· ++ ['\n']) ++ rest) =
      (sym, unlines (Item.shared pre sym post lines).lines) :: definitions rest := by
  have hfirst : (Item.shared pre sym post lines).lines.map (· ++ ['\n']) ++ rest =
      (definePrefix ++ pre ++ '@' :: sym ++ '(' :: (post ++ ['\n'])) ::
        (lines.map (· ++ ['\n']) ++ ['}', '\n'] :: rest) := by simp [Item.lines]
  have hstart : definePrefix.isPrefixOf
      (definePrefix ++ pre ++ '@' :: sym ++ '(' :: (post ++ ['\n'])) = true := by
    rw [List.isPrefixOf_iff_prefix]
    simp only [List.append_assoc]
    exact List.prefix_append _ _
  rw [hfirst, definitions, if_pos hstart, symbolOf_eq hpre hsym]
  have hhead : (definePrefix ++ pre ++ '@' :: sym ++ '(' :: (post ++ ['\n'])).head? = some 'd' := rfl
  have hmiddle : ∀ l ∈ lines.map (· ++ ['\n']), l.head? ≠ some '}' := by
    intro l hl
    obtain ⟨l', hl', rfl⟩ := List.mem_map.mp hl
    exact head?_newline (by decide) (hlines l' hl')
  have hlast : ['}', '\n'].head? = some '}' := rfl
  have hbody := body_eq _ _ (by rw [hhead]; decide) hmiddle hlast rest
  simp only [hbody]
  simp [unlines, Item.lines, List.flatMap_def]

/-- The check finds the shared definitions of a module. -/
theorem definitions_text {m : Module} (h : m.WellFormed) :
    definitions (fileLines 8191 m.text) = m.shared := by
  have hlines : ∀ l ∈ m.flatMap Item.lines, '\n' ∉ l ∧ l.length < 8191 := by
    intro l hl
    obtain ⟨item, hitem, hl⟩ := List.mem_flatMap.mp hl
    exact (h item hitem).2 l hl
  rw [Module.text, fileLines_unlines (fun l hl => (hlines l hl).1) fun l hl => (hlines l hl).2]
  clear hlines
  induction m with
  | nil => rw [List.flatMap_nil, List.map_nil, definitions]; rfl
  | cons item m ih =>
    obtain ⟨hitem, -⟩ := h item List.mem_cons_self
    have hrest := ih fun item' h' => h item' (List.mem_cons_of_mem _ h')
    rw [List.flatMap_cons, List.map_append]
    cases item with
    | line text => exact (definitions_line hitem _).trans hrest
    | shared pre sym post lines =>
      rw [definitions_shared hitem.1 hitem.2.1 hitem.2.2, hrest]
      rfl

/-! ## What is compared -/

/-- Definitions with the same name are the same. -/
def Agree (ds : List (Text × Text)) : Prop := ∀ d ∈ ds, ∀ d' ∈ ds, d.1 = d'.1 → d.2 = d'.2

/-- The table has the first definition of each name that has come up, and `bad` says whether one of
them had another text. -/
structure Tallied (ds : List (Text × Text)) (s : Found) : Prop where
  mem : ∀ sym text, s.bodies.lookup sym = some text → (sym, text) ∈ ds
  known : ∀ d ∈ ds, (s.bodies.lookup d.1).isSome = true
  bad : s.bad = false ↔ ∀ d ∈ ds, s.bodies.lookup d.1 = some d.2

theorem forall_snoc {ds : List (Text × Text)} {d : Text × Text} {P : Text × Text → Prop} :
    (∀ x ∈ ds ++ [d], P x) ↔ (∀ x ∈ ds, P x) ∧ P d := by
  rw [List.forall_mem_append, List.forall_mem_singleton]

theorem Tallied.add {ds : List (Text × Text)} {s : Found} (h : Tallied ds s) (d : Text × Text) :
    Tallied (ds ++ [d]) (s.add d) := by
  unfold Found.add
  split
  next text hlookup =>
    have hmem := List.mem_append_left [d] (h.mem d.1 text hlookup)
    split
    next hne =>
      refine ⟨fun sym t ht => List.mem_append_left _ (h.mem sym t ht),
        forall_snoc.mpr ⟨h.known, by rw [hlookup]; rfl⟩, ⟨nofun, fun hall => ?_⟩⟩
      exact absurd (Option.some.inj (hlookup.symm.trans (forall_snoc.mp hall).2)) hne
    next heq =>
      rw [not_not] at heq
      exact ⟨fun sym t ht => List.mem_append_left _ (h.mem sym t ht),
        forall_snoc.mpr ⟨h.known, by rw [hlookup]; rfl⟩,
        h.bad.trans ⟨fun hall => forall_snoc.mpr ⟨hall, by rw [hlookup, heq]⟩,
          fun hall => (forall_snoc.mp hall).1⟩⟩
  next hlookup =>
    have hold {sym : Text} (ht : (s.bodies.lookup sym).isSome = true) :
        (s.bodies ++ [d]).lookup sym = s.bodies.lookup sym := by
      obtain ⟨text, htext⟩ := Option.isSome_iff_exists.mp ht
      rw [List.lookup_append, htext, Option.some_or]
    have hnew : (s.bodies ++ [d]).lookup d.1 = some d.2 := by
      rw [List.lookup_append, hlookup, Option.none_or, List.lookup_cons, beq_self_eq_true]
    refine ⟨fun sym t ht => ?_,
      forall_snoc.mpr ⟨fun d' hd' => by rw [hold (h.known d' hd')]; exact h.known d' hd',
        by rw [hnew]; rfl⟩,
      h.bad.trans ⟨fun hall => forall_snoc.mpr ⟨fun d' hd' => ?_, hnew⟩, fun hall d' hd' => ?_⟩⟩
    · cases hs : s.bodies.lookup sym with
      | some t' =>
        rw [hold (by rw [hs]; rfl), hs] at ht
        obtain rfl := Option.some.inj ht
        exact List.mem_append_left _ (h.mem sym t' hs)
      | none =>
        rw [List.lookup_append, hs, Option.none_or] at ht
        rcases eq_or_ne sym d.1 with rfl | hne
        · rw [List.lookup_cons, beq_self_eq_true] at ht
          obtain rfl := Option.some.inj ht
          exact List.mem_append_right _ List.mem_cons_self
        · rw [List.lookup_cons, beq_false_of_ne hne] at ht
          cases ht
    · rw [hold (h.known d' hd')]
      exact hall d' hd'
    · rw [← hold (h.known d' hd')]
      exact hall d' (List.mem_append_left _ hd')

theorem Tallied.addAll {ds : List (Text × Text)} {s : Found} (h : Tallied ds s)
    (ds' : List (Text × Text)) : Tallied (ds ++ ds') (ds'.foldl Found.add s) := by
  induction ds' generalizing ds s with
  | nil => rwa [List.append_nil]
  | cons d ds' ih =>
    rw [List.append_cons]
    exact ih (h.add d)

theorem Tallied.agree {ds : List (Text × Text)} {s : Found} (h : Tallied ds s) :
    s.bad = false ↔ Agree ds := by
  refine h.bad.trans ⟨fun hall d hd d' hd' heq => ?_, fun hagree d hd => ?_⟩
  · have hd₁ := hall d hd
    rw [heq, hall d' hd'] at hd₁
    exact (Option.some.inj hd₁).symm
  · obtain ⟨text, htext⟩ := Option.isSome_iff_exists.mp (h.known d hd)
    exact htext.trans (congrArg some (hagree _ (h.mem d.1 text htext) d hd rfl))

end Arche.Compile.OdrCheck
