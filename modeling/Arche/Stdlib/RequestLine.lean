import Arche.Stdlib.Parse
import Mathlib.Data.List.Basic

/-!
# `http.parse_request_line`

`raw` is a column of `[N]char`: `N` bytes, and `raw.length` is `N`. The map looks for two spaces in
the received bytes. A request line ends at its first CR or LF, and what follows are headers.

The texts that count as a VERSION are a parameter.

1. `parses_iff`: exactly on which buffers `ok` and the spans are those of the first line.
2. `not_parses`: spaces of a header make a line out of none.
-/

namespace Arche.Stdlib.Http

open Arche.Lib

abbrev space : UInt8 := 32
abbrev question : UInt8 := 63
abbrev cr : UInt8 := 13
abbrev lf : UInt8 := 10

/-! ## The source -/

/-- The rounds of `str.find_char` from `i` on. -/
def findCharFrom (s : List UInt8) (stop : Int) (ch : UInt8) : Nat → Int → Int
  | 0, _ => stop
  | k + 1, i =>
    if i < 0 then stop
    else if s.length ≤ i then stop
    else if s[i.toNat]? = some ch then i
    else findCharFrom s stop ch k (i + 1)

/-- `str.find_char` -/
def findChar (s : List UInt8) (start stop : Int) (ch : UInt8) : Int :=
  findCharFrom s stop ch (stop - start).toNat start

/-- The columns that the map writes. -/
structure Spans where
  ok : Int
  methodStart : Int
  methodLen : Int
  targetStart : Int
  targetLen : Int
deriving DecidableEq

/-- What the map sets first. -/
def Spans.none : Spans := ⟨0, 0, 0, 0, 0⟩

/-- `parse_request_line` on one row. -/
def parseRequestLine (raw : List UInt8) (rawLen : Int) : Spans :=
  if 5 ≤ rawLen then
    let sp1 := findChar raw 0 rawLen space
    let sp2 := findChar raw (sp1 + 1) rawLen space
    if sp1 < rawLen ∧ sp2 < rawLen then
      let tstart := sp1 + 1
      let q := findChar raw tstart sp2 question
      let tend := if q < sp2 then q else sp2
      ⟨1, 0, sp1, tstart, tend - tstart⟩
    else .none
  else .none

/-! ## What is promised -/

/-- A row as the server received it. -/
structure Received where
  raw : List UInt8
  rawLen : Nat
  le : rawLen ≤ raw.length

def Received.bytes (r : Received) : List UInt8 := r.raw.take r.rawLen

/-- Up to the first CR or LF, or the end. -/
def firstLine (bs : List UInt8) : List UInt8 := bs.takeWhile fun b => b != cr && b != lf

/-- METHOD SP TARGET SP VERSION, with `method` before the first space and `target` between it and
the second one. -/
structure IsRequestLine (isVersion : List UInt8 → Prop) (line method target version : List UInt8) :
    Prop where
  line_eq : line = method ++ space :: (target ++ space :: version)
  method_space : space ∉ method
  target_space : space ∉ target
  method_ne : method ≠ []
  target_ne : target ≠ []
  version : isVersion version

/-- The text of a span over `raw`. -/
def spanText (raw : List UInt8) (start len : Int) : List UInt8 :=
  (raw.drop start.toNat).take len.toNat

/-- A span inside the first `n` bytes. -/
def Inside (n : Nat) (start len : Int) : Prop := 0 ≤ start ∧ 0 ≤ len ∧ start + len ≤ n

/-- The columns describe the line: the method, and the target cut at its first `?`. -/
structure Describes (raw line method target : List UInt8) (s : Spans) : Prop where
  ok : s.ok = 1
  method_inside : Inside line.length s.methodStart s.methodLen
  target_inside : Inside line.length s.targetStart s.targetLen
  method_text : spanText raw s.methodStart s.methodLen = method
  target_text : spanText raw s.targetStart s.targetLen = target.take (target.idxOf question)

/-- A request line is described, and any other first line leaves `ok` and the spans 0. -/
structure Parses (isVersion : List UInt8 → Prop) (r : Received) : Prop where
  accepts : ∀ method target version,
    IsRequestLine isVersion (firstLine r.bytes) method target version →
      Describes r.raw (firstLine r.bytes) method target (parseRequestLine r.raw r.rawLen)
  rejects : (∀ method target version,
    ¬ IsRequestLine isVersion (firstLine r.bytes) method target version) →
      parseRequestLine r.raw r.rawLen = .none

/-- Where the received bytes hold two spaces, they are five or more exactly if neither part before
the second space is empty or has a line end in it, and the rest of the line is a VERSION. -/
def Clean (isVersion : List UInt8 → Prop) (bs : List UInt8) : Prop :=
  ∀ method target rest, bs = method ++ space :: (target ++ space :: rest) → space ∉ method →
    space ∉ target →
    (5 ≤ bs.length ↔ method ≠ [] ∧ target ≠ [] ∧ (∀ b ∈ method ++ target, b ≠ cr ∧ b ≠ lf) ∧
      isVersion (firstLine rest))

/-! ## `find_char` -/

theorem findCharFrom_eq {s : List UInt8} {n k i : Nat} (hn : n ≤ s.length) (h : i + k = n)
    (ch : UInt8) : findCharFrom s n ch k i = (i + ((s.take n).drop i).idxOf ch : Nat) := by
  induction k generalizing i with
  | zero =>
    rw [List.drop_eq_nil_of_le (by rw [List.length_take]; omega), List.idxOf_nil]
    exact congrArg Nat.cast h.symm
  | succ k ih =>
    have hi : i < (s.take n).length := by rw [List.length_take]; omega
    have hget : s[i]? = some (s.take n)[i] := by
      rw [List.getElem_take, List.getElem?_eq_getElem]
    rw [findCharFrom, if_neg (by omega), if_neg (by omega), Int.toNat_natCast, hget,
      List.drop_eq_getElem_cons hi]
    by_cases hch : (s.take n)[i] = ch
    · rw [if_pos (by rw [hch]), hch, List.idxOf_cons_self]
      rfl
    · rw [if_neg (fun h => hch (Option.some.inj h)), List.idxOf_cons_ne _ hch]
      have := ih (i := i + 1) (by omega)
      rw [← Nat.cast_succ, this]
      omega

/-- In a window of the slice `find_char` finds the first place, or the end of the window. -/
theorem findChar_eq {s : List UInt8} {i n : Nat} (hn : n ≤ s.length) (hi : i ≤ n) (ch : UInt8) :
    findChar s i n ch = (i + ((s.take n).drop i).idxOf ch : Nat) :=
  findCharFrom_eq hn (by omega) ch

theorem idxOf_cut {m : List UInt8} {ch : UInt8} (hm : ch ∉ m) (rest : List UInt8) :
    (m ++ ch :: rest).idxOf ch = m.length := by
  rw [List.idxOf_append_of_notMem hm, List.idxOf_cons_self, Nat.add_zero]

namespace Received

variable (r : Received)

theorem length_bytes : r.bytes.length = r.rawLen := by
  rw [bytes, List.length_take]
  exact Nat.min_eq_left r.le

variable {r} {m rest : List UInt8}

theorem drop_cut (hcut : r.bytes = m ++ space :: rest) : r.bytes.drop (m.length + 1) = rest := by
  rw [hcut, List.drop_length_add_append]
  rfl

theorem length_cut (hcut : r.bytes = m ++ space :: rest) :
    r.rawLen = m.length + 1 + rest.length := by
  rw [← r.length_bytes, hcut, List.length_append, List.length_cons]
  omega

theorem find_first (hcut : r.bytes = m ++ space :: rest) (hm : space ∉ m) :
    findChar r.raw 0 r.rawLen space = m.length := by
  have hfind := findChar_eq (i := 0) r.le (Nat.zero_le _) space
  have hat : (r.raw.take r.rawLen).idxOf space = m.length := by
    rw [show r.raw.take r.rawLen = r.bytes from rfl, hcut, idxOf_cut hm]
  rw [List.drop_zero, Nat.zero_add, hat] at hfind
  exact hfind

theorem find_second (hcut : r.bytes = m ++ space :: rest) :
    findChar r.raw (m.length + 1) r.rawLen space = (m.length + 1 + rest.idxOf space : Nat) := by
  have hlen := length_cut hcut
  have hfind := findChar_eq (i := m.length + 1) r.le (by omega) space
  rw [show r.raw.take r.rawLen = r.bytes from rfl, drop_cut hcut] at hfind
  exact hfind

theorem find_question {t v : List UInt8} (hcut : r.bytes = m ++ space :: (t ++ space :: v)) :
    findChar r.raw (m.length + 1) (m.length + 1 + t.length : Nat) question =
      (m.length + 1 + t.idxOf question : Nat) := by
  have hlen := length_cut hcut
  have hle := r.le
  rw [List.length_append] at hlen
  have hfind := findChar_eq (s := r.raw) (i := m.length + 1) (n := m.length + 1 + t.length)
    (by omega) (by omega) question
  have hwindow : (r.raw.take (m.length + 1 + t.length)).drop (m.length + 1) = t := by
    have hin : r.raw.take (m.length + 1 + t.length) = r.bytes.take (m.length + 1 + t.length) := by
      rw [bytes, List.take_take, Nat.min_eq_left (by omega)]
    rw [hin, List.drop_take, drop_cut hcut, Nat.add_sub_cancel_left, List.take_left]
  rw [hwindow] at hfind
  exact hfind

theorem parse_of_none (h : space ∉ r.bytes) : parseRequestLine r.raw r.rawLen = .none := by
  have hfind := findChar_eq (i := 0) r.le (Nat.zero_le _) space
  have hat : (r.raw.take r.rawLen).idxOf space = r.rawLen := by
    rw [show r.raw.take r.rawLen = r.bytes from rfl, List.idxOf_eq_length h, r.length_bytes]
  rw [List.drop_zero, Nat.zero_add, hat] at hfind
  have hsp1 : findChar r.raw 0 r.rawLen space = r.rawLen := hfind
  unfold parseRequestLine
  dsimp only
  rw [hsp1]
  split
  · exact if_neg fun h => absurd h.1 (Int.lt_irrefl _)
  · rfl

theorem parse_of_one (hcut : r.bytes = m ++ space :: rest) (hm : space ∉ m) (hrest : space ∉ rest) :
    parseRequestLine r.raw r.rawLen = .none := by
  have hsecond := find_second hcut
  rw [List.idxOf_eq_length hrest, ← length_cut hcut] at hsecond
  unfold parseRequestLine
  dsimp only
  rw [find_first hcut hm, hsecond]
  split
  · exact if_neg fun h => absurd h.2 (Int.lt_irrefl _)
  · rfl

/-- Two spaces cut the received bytes. -/
theorem parse_of_two {t v : List UInt8} (hcut : r.bytes = m ++ space :: (t ++ space :: v))
    (hm : space ∉ m) (ht : space ∉ t) : parseRequestLine r.raw r.rawLen =
      if 5 ≤ r.rawLen then ⟨1, 0, m.length, m.length + 1, t.idxOf question⟩ else .none := by
  have hlen := length_cut hcut
  have hsecond := find_second hcut
  have hle : t.idxOf question ≤ t.length := List.idxOf_le_length
  rw [idxOf_cut ht] at hsecond
  rw [List.length_append, List.length_cons] at hlen
  unfold parseRequestLine
  dsimp only
  rw [find_first hcut hm, hsecond, find_question hcut]
  by_cases hfive : 5 ≤ r.rawLen
  · rw [if_pos (by omega), if_pos ⟨by omega, by omega⟩, if_pos hfive]
    congr 1
    split <;> omega
  · rw [if_neg (by omega), if_neg hfive]

end Received

/-! ## The first line -/

theorem firstLine_prefix (bs : List UInt8) : ∃ rest, bs = firstLine bs ++ rest :=
  ⟨_, List.takeWhile_append_dropWhile.symm⟩

theorem firstLine_no_end {bs : List UInt8} : ∀ b ∈ firstLine bs, b ≠ cr ∧ b ≠ lf := by
  intro b hb
  simpa using List.mem_takeWhile_imp hb

theorem firstLine_append {as bs : List UInt8} (h : ∀ b ∈ as, b ≠ cr ∧ b ≠ lf) :
    firstLine (as ++ bs) = as ++ firstLine bs :=
  List.takeWhile_append_of_pos fun b hb => by simpa using h b hb

theorem cut_unique {a : UInt8} {x x' y y' : List UInt8} (hx : a ∉ x) (hy : a ∉ y)
    (h : x ++ a :: x' = y ++ a :: y') : x = y ∧ x' = y' := by
  have hlen : x.length = y.length := by
    rw [← idxOf_cut hx x', h, idxOf_cut hy]
  obtain ⟨hxy, hrest⟩ := List.append_inj h hlen
  exact ⟨hxy, List.tail_eq_of_cons_eq hrest⟩

variable {isVersion : List UInt8 → Prop} {m t v : List UInt8}

theorem firstLine_cut (hends : ∀ b ∈ m ++ t, b ≠ cr ∧ b ≠ lf) :
    firstLine (m ++ space :: (t ++ space :: v)) = m ++ space :: (t ++ space :: firstLine v) := by
  have hmarks : ∀ b ∈ m ++ space :: (t ++ [space]), b ≠ cr ∧ b ≠ lf := by
    intro b hb
    by_cases hspace : b = space
    · rw [hspace]
      decide
    · refine hends b ?_
      simpa [hspace] using hb
  have hcut : firstLine (m ++ space :: (t ++ [space]) ++ v) = _ := firstLine_append hmarks
  simpa using hcut

/-- The first line of bytes with two spaces, cut at these, as a request line. -/
theorem isRequestLine_iff {bs : List UInt8} (hcut : bs = m ++ space :: (t ++ space :: v))
    (hm : space ∉ m) (ht : space ∉ t) {m' t' v' : List UInt8} :
    IsRequestLine isVersion (firstLine bs) m' t' v' ↔ (m' = m ∧ t' = t ∧ v' = firstLine v) ∧
      m ≠ [] ∧ t ≠ [] ∧ (∀ b ∈ m ++ t, b ≠ cr ∧ b ≠ lf) ∧ isVersion (firstLine v) := by
  constructor
  · intro h
    obtain ⟨rest, hrest⟩ := firstLine_prefix bs
    have hwhole : m ++ space :: (t ++ space :: v) =
        m' ++ space :: (t' ++ space :: (v' ++ rest)) := by
      rw [← hcut, hrest, h.line_eq]
      simp
    obtain ⟨rfl, htail⟩ := cut_unique hm h.method_space hwhole
    obtain ⟨rfl, -⟩ := cut_unique ht h.target_space htail
    have hends : ∀ b ∈ m ++ t, b ≠ cr ∧ b ≠ lf := by
      intro b hb
      have hin : b ∈ firstLine bs → b ≠ cr ∧ b ≠ lf := firstLine_no_end b
      refine hin ?_
      rw [h.line_eq]
      rcases List.mem_append.1 hb with hb | hb <;> simp [hb]
    have hlines := h.line_eq
    rw [hcut, firstLine_cut hends] at hlines
    obtain rfl : firstLine v = v' := by simpa using hlines
    exact ⟨⟨rfl, rfl, rfl⟩, h.method_ne, h.target_ne, hends, h.version⟩
  · rintro ⟨⟨rfl, rfl, rfl⟩, hne, hne', hends, hversion⟩
    exact ⟨by rw [hcut, firstLine_cut hends], hm, ht, hne, hne', hversion⟩

/-- A request line takes two spaces. -/
theorem exists_cut {r : Received} {m' t' v' : List UInt8}
    (h : IsRequestLine isVersion (firstLine r.bytes) m' t' v') :
    ∃ rest, r.bytes = m' ++ space :: (t' ++ space :: rest) := by
  obtain ⟨rest, hrest⟩ := firstLine_prefix r.bytes
  exact ⟨v' ++ rest, by rw [hrest, h.line_eq]; simp⟩

/-! ## Where the map is right -/

/-- The spans over the buffer are the parts of the line. -/
theorem describes_of_two {r : Received} (hcut : r.bytes = m ++ space :: (t ++ space :: v))
    (hends : ∀ b ∈ m ++ t, b ≠ cr ∧ b ≠ lf) : Describes r.raw (firstLine r.bytes) m t
      ⟨1, 0, m.length, m.length + 1, t.idxOf question⟩ := by
  have hle : t.idxOf question ≤ t.length := List.idxOf_le_length
  have hline : (firstLine r.bytes).length = m.length + 1 + t.length + 1 + (firstLine v).length := by
    rw [hcut, firstLine_cut hends]
    simp only [List.length_append, List.length_cons]
    omega
  obtain ⟨tail, hraw⟩ : ∃ tail, r.raw = m ++ space :: (t ++ tail) := by
    have hsplit := List.take_append_drop r.rawLen r.raw
    rw [show r.raw.take r.rawLen = r.bytes from rfl, hcut] at hsplit
    exact ⟨space :: v ++ r.raw.drop r.rawLen, by simpa using hsplit.symm⟩
  refine ⟨rfl, ⟨Int.le_refl 0, Int.natCast_nonneg _, ?_⟩, ⟨?_, Int.natCast_nonneg _, ?_⟩, ?_, ?_⟩
  · dsimp only
    omega
  · dsimp only
    omega
  · dsimp only
    omega
  · rw [hraw]
    exact List.take_left
  · have hstart : ((m.length : Int) + 1).toNat = m.length + 1 := rfl
    dsimp only [spanText]
    rw [hstart, Int.toNat_natCast, hraw, List.drop_length_add_append, List.drop_succ_cons,
      List.drop_zero, List.take_append_of_le_length hle]

theorem parses_iff (isVersion : List UInt8 → Prop) (r : Received) :
    Parses isVersion r ↔ Clean isVersion r.bytes := by
  by_cases htwo : ∃ m t v, r.bytes = m ++ space :: (t ++ space :: v) ∧ space ∉ m ∧ space ∉ t
  · obtain ⟨m, t, v, hcut, hm, ht⟩ := htwo
    have hparse := Received.parse_of_two hcut hm ht
    have hclean : Clean isVersion r.bytes ↔ (5 ≤ r.rawLen ↔ m ≠ [] ∧ t ≠ [] ∧
        (∀ b ∈ m ++ t, b ≠ cr ∧ b ≠ lf) ∧ isVersion (firstLine v)) := by
      rw [← r.length_bytes]
      refine ⟨fun h => h m t v hcut hm ht, fun h m' t' v' hcut' hm' ht' => ?_⟩
      obtain ⟨rfl, htail⟩ := cut_unique hm hm' (hcut.symm.trans hcut')
      obtain ⟨rfl, rfl⟩ := cut_unique ht ht' htail
      exact h
    rw [hclean]
    by_cases hgood : m ≠ [] ∧ t ≠ [] ∧ (∀ b ∈ m ++ t, b ≠ cr ∧ b ≠ lf) ∧ isVersion (firstLine v)
    · have hline : IsRequestLine isVersion (firstLine r.bytes) m t (firstLine v) :=
        (isRequestLine_iff hcut hm ht).2 ⟨⟨rfl, rfl, rfl⟩, hgood⟩
      constructor
      · intro h
        refine ⟨fun _ => hgood, fun _ => ?_⟩
        have hok := (h.accepts m t _ hline).ok
        rw [hparse] at hok
        by_contra hfive
        rw [if_neg hfive] at hok
        cases hok
      · intro h
        refine ⟨fun m' t' v' h' => ?_, fun hnone => absurd hline (hnone m t _)⟩
        obtain ⟨⟨rfl, rfl, rfl⟩, -⟩ := (isRequestLine_iff hcut hm ht).1 h'
        rw [hparse, if_pos (h.2 hgood)]
        exact describes_of_two hcut hgood.2.2.1
    · have hnone : ∀ m' t' v', ¬ IsRequestLine isVersion (firstLine r.bytes) m' t' v' :=
        fun m' t' v' h' => hgood ((isRequestLine_iff hcut hm ht).1 h').2
      constructor
      · intro h
        refine ⟨fun hfive => ?_, fun h' => absurd h' hgood⟩
        have hrejected := h.rejects hnone
        rw [hparse, if_pos hfive] at hrejected
        cases hrejected
      · intro h
        refine ⟨fun m' t' v' h' => absurd h' (hnone m' t' v'), fun _ => ?_⟩
        rw [hparse, if_neg fun hfive => hgood (h.1 hfive)]
  · have hnone : parseRequestLine r.raw r.rawLen = .none := by
      by_cases hmem : space ∈ r.bytes
      · obtain ⟨m, rest, hcut, hm⟩ := List.eq_append_cons_of_mem hmem
        refine Received.parse_of_one hcut hm fun hspace => htwo ?_
        obtain ⟨t, v, rfl, ht⟩ := List.eq_append_cons_of_mem hspace
        exact ⟨m, t, v, hcut, hm, ht⟩
      · exact Received.parse_of_none hmem
    refine iff_of_true ⟨fun m t v h => ?_, fun _ => hnone⟩ fun m t v hcut hm ht => ?_
    · obtain ⟨rest, hcut⟩ := exists_cut h
      exact absurd ⟨m, t, rest, hcut, h.method_space, h.target_space⟩ htwo
    · exact absurd ⟨m, t, v, hcut, hm, ht⟩ htwo

/-- `GET`, CR, LF and `Host: a b`. -/
def headerOnly : Received :=
  ⟨[71, 69, 84, 13, 10, 72, 111, 115, 116, 58, 32, 97, 32, 98], 14, Nat.le_refl _⟩

/-- Whatever texts are versions, the spaces of a header make a request line out of none. -/
theorem not_parses : ¬ ∃ isVersion, ∀ r, Parses isVersion r := by
  rintro ⟨isVersion, hall⟩
  have hline : ∀ m t v, ¬ IsRequestLine isVersion (firstLine headerOnly.bytes) m t v := by
    intro m t v h
    have hspace : space ∈ firstLine headerOnly.bytes := by
      rw [h.line_eq]
      simp
    exact absurd hspace (by decide)
  have hnone := (hall headerOnly).rejects hline
  exact absurd hnone (by decide)

end Arche.Stdlib.Http
