import Arche.Lib.Fold
import Arche.Lib.Pieces

/-!
# `router.resolve`

Every route is matched against every request by two cursors, `qs` in the pattern and `ps` in the
path. A request keeps the best score so far, and with it the handler and the span of the first
capture. The cursors never are negative and are `Nat` here.

* A pattern or a path is its array of `char`. Its text ends before the first NUL.
* Segments are what one leading slash and every other slash cut; nothing behind the last slash is
  none.
* `:name` matches one segment and `*` the rest, which may be empty.

1. `resolves_iff`: the handler always is that of the first route of the highest score, and the
   capture lies in the path unless the route is a catch-all behind static segments that are all
   of a path without a final slash.
2. `not_resolves`: `/static/*` on `/static`.
-/

namespace Arche.Stdlib.Router

open Arche.Lib

abbrev slash : UInt8 := 47
abbrev colon : UInt8 := 58
abbrev star : UInt8 := 42

/-! ## The source -/

/-- `str.strlen` -/
def strlen : List UInt8 → Nat
  | [] => 0
  | ch :: s => if ch = 0 then 0 else strlen s + 1

/-- The rounds of `seg_end` from `i` on. -/
def segEndFrom (p : List UInt8) (n : Nat) : Nat → Nat → Nat
  | 0, _ => n
  | k + 1, i =>
    match p[i]? with
    | none => n
    | some ch => if ch = slash then i else segEndFrom p n k (i + 1)

def segEnd (p : List UInt8) (start n : Nat) : Nat := segEndFrom p n (n - start) start

def segEqSpans (a : List UInt8) (as ae : Nat) (b : List UInt8) (bs be : Nat) : Bool :=
  if (ae : Int) - as ≠ (be : Int) - bs then false
  else (List.range (ae - as)).all fun i =>
    match a[as + i]?, b[bs + i]? with
    | some x, some y => x == y
    | _, _ => false

/-- The locals of `resolve` in the loop. -/
structure Scan where
  qs : Nat
  ps : Nat
  cs : Int
  cl : Int
  bestseg : Int
  sc : Int

theorem le_segEnd (p : List UInt8) {start n : Nat} (h : start ≤ n) : start ≤ segEnd p start n := by
  have hfrom : ∀ k i, i + k = n → i ≤ segEndFrom p n k i := by
    intro k
    induction k with
    | zero => exact fun i hi => Nat.le_of_eq hi
    | succ k ih =>
      intro i hi
      unfold segEndFrom
      split
      · omega
      · split
        · exact Nat.le_refl i
        · exact Nat.le_of_succ_le (ih (i + 1) (by omega))
  exact hfrom (n - start) start (by omega)

variable (pattern path : List UInt8) (pn qn : Nat)

/-- The loop over the segments of the pattern. -/
def scan (s : Scan) : Scan :=
  if _h : s.qs < qn then
    let qe := segEnd pattern s.qs qn
    if pattern[s.qs]? = some star then
      if s.cs < 0 then { s with cs := s.ps, cl := pn - s.ps, sc := 1 } else { s with sc := 1 }
    else if pn ≤ s.ps then { s with sc := 0 }
    else
      let pe := segEnd path s.ps pn
      if pattern[s.qs]? = some colon then
        scan {
          qs := qe + 1
          ps := pe + 1
          cs := if s.cs < 0 then s.ps else s.cs
          cl := if s.cs < 0 then pe - s.ps else s.cl
          bestseg := if 2 < s.bestseg then 2 else s.bestseg
          sc := s.sc }
      else if !segEqSpans pattern s.qs qe path s.ps pe then { s with sc := 0 }
      else scan { s with qs := qe + 1, ps := pe + 1 }
  else s
termination_by qn - s.qs
decreasing_by
  all_goals
    have := le_segEnd pattern (Nat.le_of_lt _h)
    omega

/-- The score of a scan that has ended. -/
def Scan.final (pn : Nat) (s : Scan) : Int :=
  if s.sc < 0 then if s.ps < pn then 0 else s.bestseg else s.sc

structure Route where
  pattern : List UInt8
  hid : Int

/-- A row of the request pool. -/
structure Req where
  path : List UInt8
  outH : Int
  cap0Start : Int
  cap0Len : Int
  best : Int

/-- Where the cursor starts. -/
def firstSeg (a : List UInt8) : Nat := if 0 < strlen a ∧ a[0]? = some slash then 1 else 0

def matchRoute (pattern path : List UInt8) : Scan :=
  scan pattern path (strlen path) (strlen pattern)
    ⟨firstSeg pattern, firstSeg path, -1, -1, 3, -1⟩

/-- The inner `map`. -/
def resolveRow (r : Route) (q : Req) : Req :=
  let s := matchRoute r.pattern q.path
  let sc := s.final (strlen q.path)
  if q.best < sc then { q with best := sc, outH := r.hid, cap0Start := s.cs, cap0Len := s.cl }
  else q

def resolve (routes : List Route) (reqs : List Req) : List Req :=
  routes.foldl (fun reqs r => reqs.map (resolveRow r)) reqs

/-! ## What it should compute -/

def text (a : List UInt8) : List UInt8 := a.takeWhile (· ≠ 0)

def body (t : List UInt8) : List UInt8 := if t.head? = some slash then t.tail else t

def segments (a : List UInt8) : List (List UInt8) := pieces slash (body (text a))

def isParam (seg : List UInt8) : Bool := seg.head? = some colon

def isCatchAll (seg : List UInt8) : Bool := seg.head? = some star

def matchesPath : List (List UInt8) → List (List UInt8) → Bool
  | [], ss => ss.isEmpty
  | p :: ps, ss =>
    if isCatchAll p then true
    else
      match ss with
      | [] => false
      | s :: ss => (isParam p || p == s) && matchesPath ps ss

def specificity (pattern : List (List UInt8)) : Nat :=
  if pattern.any isCatchAll then 1 else if pattern.any isParam then 2 else 3

/-- `0` if the route does not match. -/
def routeScore (path : List UInt8) (r : Route) : Nat :=
  if matchesPath (segments r.pattern) (segments path) then specificity (segments r.pattern) else 0

def hasCapture (pattern : List (List UInt8)) : Bool :=
  pattern.any fun p => isParam p || isCatchAll p

def InPath (n : Nat) (start len : Int) : Prop := 0 ≤ start ∧ 0 ≤ len ∧ start + len ≤ n

/-- What becomes of a request. -/
structure Picks (routes : List Route) (q q' : Req) : Prop where
  handler : ∀ i r, FirstBest (routeScore q.path) routes i r → q'.outH = r.hid
  untouched : (∀ r ∈ routes, matchesPath (segments r.pattern) (segments q.path) = false) → q' = q
  capture : ∀ i r, FirstBest (routeScore q.path) routes i r →
    hasCapture (segments r.pattern) = true →
    InPath (text q.path).length q'.cap0Start q'.cap0Len

def Resolves (routes : List Route) (reqs : List Req) : Prop :=
  ∀ (j : Nat) (q q' : Req), reqs[j]? = some q → (resolve routes reqs)[j]? = some q' → q.best = 0 →
    Picks routes q q'

/-- The path is used up by the static segments before the first catch-all, and no slash ends it. -/
def Overruns (pattern path : List UInt8) : Prop :=
  ∃ statics catchAll after, segments pattern = statics ++ catchAll :: after ∧
    isCatchAll catchAll = true ∧ (∀ p ∈ statics, isParam p = false ∧ isCatchAll p = false) ∧
    statics ≠ [] ∧ statics = segments path ∧ (text path).getLast? ≠ some slash

/-! ## Reading -/

section Reading

variable {a b x y : List UInt8} {i n : Nat}

/-- The array has `x` from `i` on. -/
def Spells (a : List UInt8) (i : Nat) (x : List UInt8) : Prop :=
  ∀ k, k < x.length → a[i + k]? = x[k]?

theorem Spells.drop (h : Spells a i x) (m : Nat) : Spells a (i + m) (x.drop m) := by
  intro k hk
  rw [List.length_drop] at hk
  rw [List.getElem?_drop, Nat.add_assoc]
  exact h (m + k) (by omega)

theorem Spells.piece (h : Spells a i x) : Spells a i (firstPiece slash x) := by
  intro k hk
  have hpre : firstPiece slash x <+: x := List.takeWhile_prefix _
  rw [h k (Nat.lt_of_lt_of_le hk hpre.length_le), List.prefix_iff_getElem?.mp hpre k hk]
  exact (List.getElem?_eq_getElem hk).symm

theorem Spells.head (h : Spells a i x) (hx : x ≠ []) : a[i]? = x.head? := by
  rw [List.head?_eq_getElem?]
  exact h 0 (List.length_pos_iff.mpr hx)

theorem strlen_eq (a : List UInt8) : strlen a = (text a).length := by
  induction a with
  | nil => rfl
  | cons ch a ih =>
    unfold text at ih ⊢
    rw [strlen, List.takeWhile_cons]
    by_cases hch : ch = 0
    · rw [if_pos hch, if_neg (by simpa using hch)]
      rfl
    · rw [if_neg hch, if_pos (by simpa using hch), ih]
      rfl

theorem spells_text (a : List UInt8) : Spells a 0 (text a) := by
  intro k hk
  have hpre : text a <+: a := List.takeWhile_prefix _
  rw [Nat.zero_add, List.prefix_iff_getElem?.mp hpre k hk]
  exact (List.getElem?_eq_getElem hk).symm

theorem segEnd_eq (h : Spells a i x) (hn : n = i + x.length) :
    segEnd a i n = i + (firstPiece slash x).length := by
  have hfrom : ∀ (x : List UInt8) i, Spells a i x → n = i + x.length →
      segEndFrom a n x.length i = i + (firstPiece slash x).length := by
    intro x
    induction x with
    | nil => exact fun i _ hn => hn
    | cons ch x ih =>
      intro i h hn
      have hat : a[i]? = some ch := h.head (List.cons_ne_nil ch x)
      rw [List.length_cons, segEndFrom, hat, firstPiece, List.takeWhile_cons]
      dsimp only
      by_cases hch : ch = slash
      · rw [if_pos hch, if_neg (by simpa using hch)]
        rfl
      · rw [if_neg hch, if_pos (by simpa using hch)]
        rw [ih (i + 1) (h.drop 1) (by rw [hn, List.length_cons]; omega), List.length_cons]
        unfold firstPiece
        omega
  have hlen : n - i = x.length := by omega
  rw [segEnd, hlen]
  exact hfrom x i h hn

theorem segEqSpans_eq {bs : Nat} (ha : Spells a i x) (hb : Spells b bs y) :
    segEqSpans a i (i + x.length) b bs (bs + y.length) = (x == y) := by
  rw [Bool.eq_iff_iff, beq_iff_eq]
  unfold segEqSpans
  by_cases hlen : x.length = y.length
  · rw [if_neg (by omega), List.all_eq_true]
    simp only [Nat.add_sub_cancel_left, List.mem_range]
    constructor
    · intro hall
      refine List.ext_getElem? fun k => ?_
      rcases Nat.lt_or_ge k x.length with hk | hk
      · have hk' := hall k hk
        rw [ha k hk, hb k (hlen ▸ hk)] at hk'
        split at hk'
        · next u v hu hv => rw [hu, hv, beq_iff_eq.mp hk']
        · cases hk'
      · rw [List.getElem?_eq_none hk, List.getElem?_eq_none (hlen ▸ hk)]
    · rintro rfl k hk
      rw [ha k hk, hb k hk, List.getElem?_eq_getElem hk]
      exact beq_self_eq_true _
  · rw [if_pos (by omega)]
    refine ⟨fun h => (Bool.false_ne_true h).elim, ?_⟩
    rintro rfl
    exact absurd rfl hlen

end Reading

/-! ## One route -/

section Scanning

variable {pattern path : List UInt8} {n ps : Nat} {q : List UInt8} {qs : List (List UInt8)}
  {l : List UInt8}

/-- What the segments `qs` score, from `bestseg` on. -/
def segScore (bestseg : Int) (qs : List (List UInt8)) : Int :=
  if qs.any isCatchAll then 1 else if qs.any isParam then min bestseg 2 else bestseg

/-- `Overruns` from the cursor `ps` on, with `l` behind it. -/
def OverrunsAt (qs : List (List UInt8)) (n ps : Nat) (l : List UInt8) : Prop :=
  ∃ statics catchAll after, qs = statics ++ catchAll :: after ∧ isCatchAll catchAll = true ∧
    (∀ p ∈ statics, isParam p = false ∧ isCatchAll p = false) ∧ statics = pieces slash l ∧
    if l = [] then ps = n + 1 else l.getLast? ≠ some slash

theorem pieces_eq_nil : pieces slash l = [] ↔ l = [] := by
  refine ⟨fun h => ?_, fun h => h ▸ pieces_nil⟩
  by_contra hl
  rw [pieces_of_ne_nil hl] at h
  cases h

theorem isParam_of_catchAll (h : isCatchAll q = true) : isParam q = false := by
  have hhead : q.head? = some star := of_decide_eq_true h
  unfold isParam
  rw [hhead]
  decide

theorem overrunsAt_catchAll (h : isCatchAll q = true) :
    OverrunsAt (q :: qs) n ps l ↔ l = [] ∧ ps = n + 1 := by
  constructor
  · rintro ⟨statics, catchAll, after, heq, -, hplain, hpieces, hend⟩
    cases statics with
    | nil =>
      have hl := pieces_eq_nil.mp hpieces.symm
      rw [if_pos hl] at hend
      exact ⟨hl, hend⟩
    | cons p statics =>
      cases heq
      rw [(hplain _ List.mem_cons_self).2] at h
      cases h
  · rintro ⟨rfl, hps⟩
    exact ⟨[], q, qs, rfl, h, fun p hp => absurd hp List.not_mem_nil, rfl, (if_pos rfl).mpr hps⟩

theorem not_overrunsAt_param (h : isParam q = true) : ¬ OverrunsAt (q :: qs) n ps l := by
  rintro ⟨statics, catchAll, after, heq, hcatch, hplain, -, -⟩
  cases statics with
  | nil =>
    cases heq
    rw [isParam_of_catchAll hcatch] at h
    cases h
  | cons p statics =>
    cases heq
    rw [(hplain _ List.mem_cons_self).1] at h
    cases h

/-- Behind a static segment the question is the same. -/
theorem overrunsAt_cons (hplain : isParam q = false ∧ isCatchAll q = false) (hl : l ≠ [])
    (hq : q = firstPiece slash l) (hlen : ps + l.length = n) :
    OverrunsAt (q :: qs) n ps l ↔
      OverrunsAt qs n (ps + (firstPiece slash l).length + 1) (afterPiece slash l) := by
  have hend : (if l = [] then ps = n + 1 else l.getLast? ≠ some slash) ↔
      if afterPiece slash l = [] then ps + (firstPiece slash l).length + 1 = n + 1
      else (afterPiece slash l).getLast? ≠ some slash := by
    rw [if_neg hl]
    split
    · next hrest =>
      rcases length_of_afterPiece_nil hrest with ⟨hlast, hl'⟩ | ⟨hlast, hl'⟩
      · refine ⟨fun h => absurd hlast h, fun h => ?_⟩
        omega
      · exact ⟨fun _ => by omega, fun _ => hlast⟩
    · next hrest => rw [getLast?_of_afterPiece hrest]
  constructor
  · rintro ⟨statics, catchAll, after, heq, hcatch, hstatics, hpieces, hfinal⟩
    cases statics with
    | nil =>
      cases heq
      rw [hplain.2] at hcatch
      cases hcatch
    | cons p statics =>
      obtain ⟨rfl, rfl⟩ := List.cons.inj heq
      rw [pieces_of_ne_nil hl] at hpieces
      exact ⟨statics, catchAll, after, rfl, hcatch,
        fun p hp => hstatics p (List.mem_cons_of_mem _ hp), (List.cons.inj hpieces).2,
        hend.mp hfinal⟩
  · rintro ⟨statics, catchAll, after, rfl, hcatch, hstatics, hpieces, hfinal⟩
    refine ⟨q :: statics, catchAll, after, rfl, hcatch, fun p hp => ?_, ?_, hend.mpr hfinal⟩
    · rcases List.mem_cons.mp hp with rfl | hp
      · exact hplain
      · exact hstatics p hp
    · rw [pieces_of_ne_nil hl, ← hq, hpieces]

/-- What a scan over the segments `qs` comes to. -/
structure ScanSpec (n : Nat) (qs : List (List UInt8)) (l : List UInt8) (s r : Scan) : Prop where
  score : r.final n = if matchesPath qs (pieces slash l) then segScore s.bestseg qs else 0
  kept : 0 ≤ s.cs → r.cs = s.cs ∧ r.cl = s.cl
  captured : s.cs < 0 → matchesPath qs (pieces slash l) = true → hasCapture qs = true →
    (InPath n r.cs r.cl ↔ ¬ OverrunsAt qs n s.ps l)

/-- A scan that ends without a match. -/
theorem scanSpec_fail {s r : Scan} (hmatch : matchesPath qs (pieces slash l) = false)
    (hfinal : r.final n = 0) (hcs : r.cs = s.cs) (hcl : r.cl = s.cl) : ScanSpec n qs l s r := by
  refine ⟨?_, fun _ => ⟨hcs, hcl⟩, fun _ h => ?_⟩
  · rw [hmatch, hfinal]
    rfl
  · rw [hmatch] at h
    cases h

theorem head_firstPiece {x : List UInt8} {c : UInt8} (hc : c ≠ slash) :
    (firstPiece slash x).head? = some c ↔ x.head? = some c := by
  unfold firstPiece
  rw [List.head?_takeWhile, Option.filter_eq_some_iff]
  exact ⟨fun h => h.1, fun h => ⟨h, by simpa using hc⟩⟩

theorem scanSpec_catchAll {s : Scan} (qs : List (List UInt8)) (hq : isCatchAll q = true)
    (hps : s.ps ≤ n + 1) (hl : l.length = n - s.ps) :
    ScanSpec n (q :: qs) l s
      (if s.cs < 0 then { s with cs := s.ps, cl := n - s.ps, sc := 1 }
        else { s with sc := 1 }) := by
  have hmatch : matchesPath (q :: qs) (pieces slash l) = true := if_pos hq
  have hscore : segScore s.bestseg (q :: qs) = 1 :=
    if_pos (List.any_eq_true.mpr ⟨q, List.mem_cons_self, hq⟩)
  refine ⟨?_, fun hcs => ?_, fun hcs _ _ => ?_⟩
  · rw [hmatch, hscore]
    split <;> rfl
  · rw [if_neg (Int.not_lt.mpr hcs)]
    exact ⟨rfl, rfl⟩
  · rw [if_pos hcs, overrunsAt_catchAll hq, ← List.length_eq_zero_iff, hl]
    unfold InPath
    dsimp only
    omega

theorem scanSpec_param {s r : Scan} (hq : isParam q = true) (hl : l ≠ [])
    (hlen : s.ps + l.length = n)
    (h : ScanSpec n qs (afterPiece slash l) {
      qs := s.qs + q.length + 1
      ps := s.ps + (firstPiece slash l).length + 1
      cs := if s.cs < 0 then s.ps else s.cs
      cl := if s.cs < 0 then (s.ps + (firstPiece slash l).length : Nat) - s.ps else s.cl
      bestseg := if 2 < s.bestseg then 2 else s.bestseg
      sc := s.sc } r) : ScanSpec n (q :: qs) l s r := by
  have hnot : isCatchAll q = false := by
    refine Bool.eq_false_iff.mpr fun hcatch => ?_
    rw [isParam_of_catchAll hcatch] at hq
    cases hq
  have hmatch : matchesPath (q :: qs) (pieces slash l) =
      matchesPath qs (pieces slash (afterPiece slash l)) := by
    rw [pieces_of_ne_nil hl, matchesPath, hnot, hq]
    rfl
  have hscore : segScore s.bestseg (q :: qs) =
      segScore (if 2 < s.bestseg then 2 else s.bestseg) qs := by
    have hmin : (if 2 < s.bestseg then 2 else s.bestseg) = min s.bestseg 2 := by omega
    have hidem : min (min s.bestseg 2) 2 = min s.bestseg 2 := by omega
    rw [hmin]
    unfold segScore
    rw [List.any_cons, List.any_cons, hnot, hq, Bool.false_or, Bool.true_or, if_pos rfl, hidem,
      ite_self]
  have hpre : (firstPiece slash l).length ≤ l.length := (List.takeWhile_prefix _).length_le
  refine ⟨?_, fun hcs => ?_, fun hcs _ _ => ?_⟩
  · rw [h.score, hmatch, hscore]
  · have hkept := h.kept
    simp only [if_neg (Int.not_lt.mpr hcs)] at hkept
    exact hkept hcs
  · have hkept := h.kept
    simp only [if_pos hcs] at hkept
    obtain ⟨hstart, hlength⟩ := hkept (Int.natCast_nonneg _)
    rw [hstart, hlength]
    refine ⟨fun _ => not_overrunsAt_param hq, fun _ => ?_⟩
    unfold InPath
    omega

theorem scanSpec_static {s r : Scan} (hplain : isParam q = false ∧ isCatchAll q = false)
    (hl : l ≠ []) (hq : q = firstPiece slash l) (hlen : s.ps + l.length = n)
    (h : ScanSpec n qs (afterPiece slash l) { s with
      qs := s.qs + q.length + 1, ps := s.ps + (firstPiece slash l).length + 1 } r) :
    ScanSpec n (q :: qs) l s r := by
  have hmatch : matchesPath (q :: qs) (pieces slash l) =
      matchesPath qs (pieces slash (afterPiece slash l)) := by
    rw [pieces_of_ne_nil hl, ← hq, matchesPath, hplain.2, beq_self_eq_true, Bool.or_true]
    rfl
  have hscore : segScore s.bestseg (q :: qs) = segScore s.bestseg qs := by
    unfold segScore
    rw [List.any_cons, List.any_cons, hplain.1, hplain.2, Bool.false_or, Bool.false_or]
  have hcapture : hasCapture (q :: qs) = hasCapture qs := by
    unfold hasCapture
    rw [List.any_cons, hplain.1, hplain.2]
    rfl
  refine ⟨?_, h.kept, fun hcs hmatches hhas => ?_⟩
  · rw [h.score, hmatch, hscore]
  · rw [overrunsAt_cons hplain hl hq hlen]
    exact h.captured hcs (hmatch ▸ hmatches) (hcapture ▸ hhas)

/-- The segment at the cursor `i`, and where the cursor goes. -/
structure At (a : List UInt8) (i : Nat) (x : List UInt8) : Prop where
  ne : x ≠ []
  spells : Spells a i x
  segEnd : segEnd a i (text a).length = i + (firstPiece slash x).length
  next : (text a).drop (i + (firstPiece slash x).length + 1) = afterPiece slash x

theorem at_cursor {a : List UInt8} {i : Nat} (hi : i < (text a).length) :
    At a i ((text a).drop i) := by
  have hspells := (spells_text a).drop i
  rw [Nat.zero_add] at hspells
  refine ⟨fun h => ?_, hspells, segEnd_eq hspells ?_, ?_⟩
  · exact absurd (List.drop_eq_nil_iff.mp h) (Nat.not_le_of_lt hi)
  · rw [List.length_drop]
    omega
  · unfold afterPiece
    rw [List.drop_drop, Nat.add_assoc]

theorem At.head {a x : List UInt8} {i : Nat} (h : At a i x) {c : UInt8} (hc : c ≠ slash) :
    a[i]? = some c ↔ (firstPiece slash x).head? = some c := by
  rw [h.spells.head h.ne, head_firstPiece hc]

theorem scan_spec (pattern path : List UInt8) (s : Scan) (hsc : s.sc = -1)
    (hps : s.ps ≤ (text path).length + 1) :
    ScanSpec (text path).length (pieces slash ((text pattern).drop s.qs))
      ((text path).drop s.ps) s
      (scan pattern path (text path).length (text pattern).length s) := by
  fun_induction scan pattern path (text path).length (text pattern).length s with
  | case1 s hqs hstar hcs =>
    have hat := at_cursor hqs
    rw [pieces_of_ne_nil hat.ne]
    have hspec := scanSpec_catchAll (pieces slash (afterPiece slash ((text pattern).drop s.qs)))
      (decide_eq_true ((hat.head (by decide)).mp hstar)) hps (List.length_drop ..)
    rwa [if_pos hcs] at hspec
  | case2 s hqs hstar hcs =>
    have hat := at_cursor hqs
    rw [pieces_of_ne_nil hat.ne]
    have hspec := scanSpec_catchAll (pieces slash (afterPiece slash ((text pattern).drop s.qs)))
      (decide_eq_true ((hat.head (by decide)).mp hstar)) hps (List.length_drop ..)
    rwa [if_neg hcs] at hspec
  | case3 s hqs hstar hend =>
    have hat := at_cursor hqs
    have hcatch : isCatchAll (firstPiece slash ((text pattern).drop s.qs)) = false :=
      decide_eq_false fun h => hstar ((hat.head (by decide)).mpr h)
    refine scanSpec_fail ?_ rfl rfl rfl
    rw [pieces_of_ne_nil hat.ne, List.drop_eq_nil_of_le hend, pieces_nil, matchesPath, hcatch]
    rfl
  | case4 s hqs qe hstar hend pe hcolon ih =>
    have hat := at_cursor hqs
    have hpath := at_cursor (Nat.lt_of_not_le hend)
    have hqe : qe = _ := hat.segEnd
    have hpe : pe = _ := hpath.segEnd
    clear_value qe pe
    subst hqe hpe
    dsimp only at ih
    rw [hat.next, hpath.next] at ih
    rw [pieces_of_ne_nil hat.ne]
    have hlen : s.ps + ((text path).drop s.ps).length = (text path).length := by
      rw [List.length_drop]
      omega
    refine scanSpec_param (decide_eq_true ((hat.head (by decide)).mp hcolon)) hpath.ne hlen
      (ih hsc ?_)
    have hpre : (firstPiece slash ((text path).drop s.ps)).length ≤ _ :=
      (List.takeWhile_prefix _).length_le
    omega
  | case5 s hqs qe hstar hend pe hcolon hne =>
    have hat := at_cursor hqs
    have hpath := at_cursor (Nat.lt_of_not_le hend)
    have hcatch : isCatchAll (firstPiece slash ((text pattern).drop s.qs)) = false :=
      decide_eq_false fun h => hstar ((hat.head (by decide)).mpr h)
    have hparam : isParam (firstPiece slash ((text pattern).drop s.qs)) = false :=
      decide_eq_false fun h => hcolon ((hat.head (by decide)).mpr h)
    refine scanSpec_fail ?_ rfl rfl rfl
    rw [show qe = _ from hat.segEnd, show pe = _ from hpath.segEnd,
      segEqSpans_eq hat.spells.piece hpath.spells.piece, Bool.not_eq_true'] at hne
    rw [pieces_of_ne_nil hat.ne, pieces_of_ne_nil hpath.ne, matchesPath, hcatch, hparam, hne]
    rfl
  | case6 s hqs qe hstar hend pe hcolon heq ih =>
    have hat := at_cursor hqs
    have hpath := at_cursor (Nat.lt_of_not_le hend)
    have hqe : qe = _ := hat.segEnd
    have hpe : pe = _ := hpath.segEnd
    clear_value qe pe
    subst hqe hpe
    dsimp only at ih
    rw [hat.next, hpath.next] at ih
    rw [pieces_of_ne_nil hat.ne]
    have hlen : s.ps + ((text path).drop s.ps).length = (text path).length := by
      rw [List.length_drop]
      omega
    rw [segEqSpans_eq hat.spells.piece hpath.spells.piece, Bool.not_eq_true', Bool.not_eq_false,
      beq_iff_eq] at heq
    refine scanSpec_static ⟨decide_eq_false fun h => hcolon ((hat.head (by decide)).mpr h),
      decide_eq_false fun h => hstar ((hat.head (by decide)).mpr h)⟩ hpath.ne heq hlen (ih hsc ?_)
    have hpre : (firstPiece slash ((text path).drop s.ps)).length ≤ _ :=
      (List.takeWhile_prefix _).length_le
    omega
  | case7 s hqs =>
    have hnil : pieces slash ((text pattern).drop s.qs) = [] :=
      pieces_eq_nil.mpr (List.drop_eq_nil_of_le (Nat.le_of_not_lt hqs))
    rw [hnil]
    refine ⟨?_, fun _ => ⟨rfl, rfl⟩, fun _ _ h => (Bool.false_ne_true h).elim⟩
    have hdone : (pieces slash ((text path).drop s.ps)).isEmpty = true ↔
        (text path).length ≤ s.ps := by
      rw [List.isEmpty_iff, pieces_eq_nil, List.drop_eq_nil_iff]
    unfold Scan.final
    rw [hsc, if_pos (by decide), matchesPath]
    split
    · next hlt => rw [if_neg fun h => absurd (hdone.mp h) (Nat.not_le_of_lt hlt)]
    · next hge => rw [if_pos (hdone.mpr (Nat.le_of_not_lt hge))]; rfl

end Scanning

/-! ## One request -/

section Request

variable {pattern path : List UInt8}

theorem firstSeg_eq (a : List UInt8) :
    firstSeg a ≤ (text a).length ∧ (text a).drop (firstSeg a) = body (text a) := by
  unfold firstSeg body
  rw [strlen_eq]
  by_cases hne : text a = []
  · rw [hne]
    exact ⟨Nat.le_refl 0, rfl⟩
  · have hpos := List.length_pos_iff.mpr hne
    rw [(spells_text a).head hne]
    by_cases hslash : (text a).head? = some slash
    · rw [if_pos ⟨hpos, hslash⟩, if_pos hslash, List.drop_one]
      exact ⟨hpos, rfl⟩
    · rw [if_neg fun h => hslash h.2, if_neg hslash]
      exact ⟨Nat.zero_le _, rfl⟩

/-- At the start the path has not been left. -/
theorem overrunsAt_start :
    OverrunsAt (segments pattern) (text path).length (firstSeg path) (body (text path)) ↔
      Overruns pattern path := by
  obtain ⟨hle, hdrop⟩ := firstSeg_eq path
  have hlast : body (text path) ≠ [] → (body (text path)).getLast? = (text path).getLast? := by
    intro hne
    unfold body at hne ⊢
    split at hne
    · next h =>
      rw [if_pos h]
      cases htext : text path with
      | nil => rfl
      | cons c t =>
        rw [htext] at hne
        exact (List.getLast?_cons_of_ne_nil hne).symm
    · next h => rw [if_neg h]
  constructor
  · rintro ⟨statics, catchAll, after, heq, hcatch, hplain, hpieces, hend⟩
    by_cases hbody : body (text path) = []
    · rw [if_pos hbody] at hend
      omega
    · rw [if_neg hbody, hlast hbody] at hend
      refine ⟨statics, catchAll, after, heq, hcatch, hplain, ?_, hpieces, hend⟩
      rw [hpieces]
      exact fun hnil => hbody (pieces_eq_nil.mp hnil)
  · rintro ⟨statics, catchAll, after, heq, hcatch, hplain, hne, hpieces, hend⟩
    have hbody : body (text path) ≠ [] := by
      intro hnil
      apply hne
      rw [hpieces, segments, hnil]
      rfl
    refine ⟨statics, catchAll, after, heq, hcatch, hplain, hpieces, ?_⟩
    rw [if_neg hbody, hlast hbody]
    exact hend

theorem matchRoute_spec (pattern path : List UInt8) :
    (matchRoute pattern path).final (text path).length =
        (routeScore path ⟨pattern, 0⟩ : Nat) ∧
      (matchesPath (segments pattern) (segments path) = true →
        hasCapture (segments pattern) = true →
        (InPath (text path).length (matchRoute pattern path).cs (matchRoute pattern path).cl ↔
          ¬ Overruns pattern path)) := by
  obtain ⟨hle, hdrop⟩ := firstSeg_eq path
  have h := scan_spec pattern path ⟨firstSeg pattern, firstSeg path, -1, -1, 3, -1⟩ rfl
    (Nat.le_succ_of_le hle)
  dsimp only at h
  rw [(firstSeg_eq pattern).2, hdrop] at h
  unfold matchRoute
  rw [strlen_eq, strlen_eq]
  refine ⟨?_, fun hmatch hcapture => ?_⟩
  · rw [h.score]
    show (if matchesPath (segments pattern) (segments path) = true then
      segScore 3 (segments pattern) else 0) = _
    unfold routeScore specificity segScore
    split
    · split
      · rfl
      · split <;> rfl
    · rfl
  · rw [← overrunsAt_start]
    exact h.captured (show (-1 : Int) < 0 by decide) hmatch hcapture

/-- The columns of a request that `resolve` writes: `best`, and what comes with it. -/
def Req.withBest (q : Req) (s : Nat × Int × Int × Int) : Req :=
  { q with best := s.1, outH := s.2.1, cap0Start := s.2.2.1, cap0Len := s.2.2.2 }

/-- What a route would write. -/
def found (path : List UInt8) (r : Route) : Int × Int × Int :=
  (r.hid, (matchRoute r.pattern path).cs, (matchRoute r.pattern path).cl)

theorem resolveRow_withBest (r : Route) (q : Req) (s : Nat × Int × Int × Int) :
    resolveRow r (q.withBest s) =
      q.withBest (keepBest (routeScore q.path) (found q.path) s r) := by
  have hscore :
      (matchRoute r.pattern q.path).final (strlen q.path) = (routeScore q.path r : Nat) := by
    rw [strlen_eq, (matchRoute_spec r.pattern q.path).1]
    rfl
  unfold resolveRow keepBest Req.withBest found
  dsimp only
  rw [hscore]
  by_cases hlt : s.1 < routeScore q.path r
  · rw [if_pos (by omega), if_pos hlt]
  · rw [if_neg (by omega), if_neg hlt]

theorem foldl_resolveRow (routes : List Route) (q : Req) (s : Nat × Int × Int × Int) :
    routes.foldl (fun q r => resolveRow r q) (q.withBest s) =
      q.withBest (routes.foldl (keepBest (routeScore q.path) (found q.path)) s) := by
  induction routes generalizing s with
  | nil => rfl
  | cons r routes ih => rw [List.foldl_cons, List.foldl_cons, resolveRow_withBest, ih]

/-- Every request goes through all routes. -/
theorem resolve_eq (routes : List Route) (reqs : List Req) :
    resolve routes reqs = reqs.map fun q => routes.foldl (fun q r => resolveRow r q) q := by
  unfold resolve
  induction routes generalizing reqs with
  | nil => exact (List.map_id' reqs).symm
  | cons r routes ih =>
    rw [List.foldl_cons, ih, List.map_map]
    rfl

theorem Overruns.hasCapture (h : Overruns pattern path) : hasCapture (segments pattern) = true := by
  obtain ⟨statics, catchAll, after, heq, hcatch, -⟩ := h
  refine List.any_eq_true.mpr ⟨catchAll, ?_, ?_⟩
  · rw [heq]
    exact List.mem_append_right _ List.mem_cons_self
  · rw [hcatch, Bool.or_true]

theorem matches_of_pos {r : Route} (h : 0 < routeScore path r) :
    matchesPath (segments r.pattern) (segments path) = true := by
  unfold routeScore at h
  split at h
  · next hmatch => exact hmatch
  · exact absurd h (Nat.lt_irrefl 0)

theorem picks_iff (routes : List Route) {q : Req} (hbest : q.best = 0) :
    Picks routes q (routes.foldl (fun q r => resolveRow r q) q) ↔
      ∀ i r, FirstBest (routeScore q.path) routes i r → ¬ Overruns r.pattern q.path := by
  have hstart : q = q.withBest (0, q.outH, q.cap0Start, q.cap0Len) := by
    obtain ⟨path, outH, cap0Start, cap0Len, best⟩ := q
    cases hbest
    rfl
  have hfold : routes.foldl (fun q r => resolveRow r q) q = q.withBest
      (routes.foldl (keepBest (routeScore q.path) (found q.path))
        (0, q.outH, q.cap0Start, q.cap0Len)) := by
    conv_lhs => rw [hstart]
    exact foldl_resolveRow routes q _
  rw [hfold]
  rcases keepBest_spec (routeScore q.path) (found q.path)
    (q.outH, q.cap0Start, q.cap0Len) routes with ⟨hkeep, hnone⟩ | ⟨i, r, hfirst, hkeep⟩
  · have hno : ∀ i r, ¬ FirstBest (routeScore q.path) routes i r := by
      intro i r h
      have hpos := h.pos
      rw [hnone r (List.mem_of_getElem? h.at_index)] at hpos
      exact Nat.lt_irrefl 0 hpos
    rw [hkeep, ← hstart]
    refine ⟨fun _ i r h => absurd h (hno i r), fun _ => ⟨fun i r h => absurd h (hno i r),
      fun _ => rfl, fun i r h => absurd h (hno i r)⟩⟩
  · rw [hkeep]
    have hmatch := matches_of_pos hfirst.pos
    have hspec := (matchRoute_spec r.pattern q.path).2 hmatch
    constructor
    · rintro ⟨-, -, hcapture⟩ j r' h'
      obtain ⟨-, rfl⟩ := hfirst.unique h'
      intro hover
      exact (hspec hover.hasCapture).mp (hcapture i r' hfirst hover.hasCapture) hover
    · intro hnot
      refine ⟨fun j r' h' => ?_, fun hnone => ?_, fun j r' h' hhas => ?_⟩
      · obtain ⟨-, rfl⟩ := hfirst.unique h'
        rfl
      · rw [hnone r (List.mem_of_getElem? hfirst.at_index)] at hmatch
        cases hmatch
      · obtain ⟨-, rfl⟩ := hfirst.unique h'
        exact (hspec hhas).mpr (hnot i r' hfirst)

end Request

/-! ## The theorem -/

theorem resolves_iff (routes : List Route) (reqs : List Req) :
    Resolves routes reqs ↔ ∀ q ∈ reqs, q.best = 0 → ∀ i r,
      FirstBest (routeScore q.path) routes i r → ¬ Overruns r.pattern q.path := by
  unfold Resolves
  rw [resolve_eq]
  constructor
  · intro h q hq hbest
    obtain ⟨j, hj⟩ := List.getElem?_of_mem hq
    refine (picks_iff routes hbest).mp (h j q _ hj ?_ hbest)
    rw [List.getElem?_map, hj]
    rfl
  · intro h j q q' hj hj' hbest
    rw [List.getElem?_map, hj] at hj'
    cases hj'
    exact (picks_iff routes hbest).mpr (h q (List.mem_of_getElem? hj) hbest)

/-- `/static/*` -/
def staticFiles : Route := ⟨[47, 115, 116, 97, 116, 105, 99, 47, 42], 1⟩

/-- `/static` -/
def staticDir : Req := ⟨[47, 115, 116, 97, 116, 105, 99, 0], -1, -1, -1, 0⟩

/-- The capture starts behind the path and has length -1. -/
theorem not_resolves : ¬ Resolves [staticFiles] [staticDir] := by
  intro h
  have hfirst : FirstBest (routeScore staticDir.path) [staticFiles] 0 staticFiles := by
    refine ⟨rfl, by decide +kernel, fun r hr => ?_, fun j r hj => absurd hj (Nat.not_lt_zero j)⟩
    rw [List.mem_singleton.mp hr]
  have hover : Overruns staticFiles.pattern staticDir.path :=
    ⟨[[115, 116, 97, 116, 105, 99]], [42], [], by decide +kernel⟩
  have hpicks := h 0 staticDir _ rfl (by rw [resolve_eq]; rfl) rfl
  exact (picks_iff [staticFiles] rfl).mp hpicks 0 staticFiles hfirst hover

end Arche.Stdlib.Router
