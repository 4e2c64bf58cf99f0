import Mathlib.Data.List.Basic
import Mathlib.Data.List.Induction
import Mathlib.Data.List.TakeWhile
import Mathlib.Tactic.Common

/-!
# The requests of the inspector

`arche_inspect_poll` reads what a client sent and collects it in `g_req` up to the next
newline. The line is handled as a C string, up to its first NUL. A byte that does not fit
empties the buffer, and what follows it is the start of the next request.

* A read is the bytes it returned. A tick is one poll: the reads until there is no more, or
  until the client is gone.
* `writes i` says whether reply `i` could be written. The client is dropped when it could not.
* `handled` are the requests of the client so far.

1. `handled_eq`: each line that is served gives one request, in order, however the bytes are
   split. It is the end of the line after the last overflow.
2. `framing_exact_iff`: the requests are the lines that fit exactly if every line served fits
   and has no NUL.
3. `not_framing_exact`: the end of an overlong line is handled.
-/

namespace Arche.Runtime.InspectRequests

/-! ## The read loop -/

abbrev newline : UInt8 := 10

/-- `REQ_MAX`. -/
def reqMax : Nat := 4096

/-- `g_client_fd`, and `g_req` up to `g_req_len`. -/
structure State where
  connected : Bool
  req : List UInt8
  handled : List (List UInt8)

/-- What one poll meets. `accept` is a client that waits, and whether the hello reached it. -/
structure Tick where
  accept : Option Bool
  reads : List (List UInt8)
  closed : Bool

/-- What `arche_inspect_handle` sees of a line. -/
def cString (line : List UInt8) : List UInt8 := line.takeWhile (· ≠ 0)

variable (writes : Nat → Bool)

/-- One byte of `buf`. After a reply that failed nothing more is looked at. -/
def readByte (s : State) (ch : UInt8) : State :=
  if !s.connected then s
  else if ch = newline then
    { connected := writes s.handled.length, req := [], handled := s.handled ++ [cString s.req] }
  else if s.req.length + 1 < reqMax then { s with req := s.req ++ [ch] }
  else { s with req := [] }

/-- The `for (;;)` of `arche_inspect_poll`. -/
def drain (s : State) (t : Tick) : State :=
  let u := t.reads.foldl (fun s buf => buf.foldl (readByte writes) s) s
  if t.closed then { u with connected := false } else u

/-- `arche_inspect_poll`. -/
def poll (s : State) (t : Tick) : State :=
  if s.connected then drain writes s t
  else
    match t.accept with
    | none => s
    | some true => drain writes ⟨true, [], []⟩ t
    | some false => { s with req := [] }

/-- The polls of one client, from the one that accepts it. -/
structure Session where
  before : State
  free : before.connected = false
  first : Tick
  accepted : first.accept = some true
  later : List Tick
  alone : ∀ t ∈ later, t.accept = none
  opened : ∀ t ∈ (first :: later).dropLast, t.closed = false

/-- What the client sent. -/
def Session.stream (c : Session) : List UInt8 :=
  ((c.first :: c.later).flatMap (·.reads)).flatten

def Session.last (c : Session) : State := (c.first :: c.later).foldl (poll writes) c.before

/-! ## Lines -/

/-- The lines of a stream that have their newline. -/
def linesOf (s : List UInt8) : List (List UInt8) := (s.splitOn newline).dropLast

/-- What follows the last newline. -/
def restOf (s : List UInt8) : List UInt8 := (s.splitOn newline).getLast (List.splitOn_ne_nil _ _)

/-- The lines before which every reply was written. -/
def served (ls : List (List UInt8)) : List (List UInt8) :=
  (ls.zipIdx.filter fun e => (List.range e.2).all writes).map (·.1)

def Fits (line : List UInt8) : Prop := line.length < reqMax

instance (line : List UInt8) : Decidable (Fits line) := inferInstanceAs (Decidable (_ < _))

/-- However the stream is split, the requests are the lines that fit. -/
def FramingExact (stream : List UInt8) : Prop :=
  ∀ c : Session, c.stream = stream →
    (c.last writes).handled = (served writes (linesOf stream)).filter (Fits ·)

theorem splitOn_snoc_newline (s : List UInt8) :
    (s ++ [newline]).splitOn newline = s.splitOn newline ++ [[]] := by
  have h := List.splitOnP_append_cons (p := (· == newline)) s [] (beq_self_eq_true newline)
  rwa [List.splitOnP_nil] at h

theorem splitOn_snoc {b : UInt8} (hb : b ≠ newline) (s : List UInt8) :
    (s ++ [b]).splitOn newline = linesOf s ++ [restOf s ++ [b]] := by
  unfold linesOf restOf
  induction s with
  | nil => simp [List.splitOn_cons_eq_if_modifyHead, hb]
  | cons x s ih =>
    obtain ⟨y, ys, hs⟩ := List.exists_cons_of_ne_nil (List.splitOn_ne_nil newline s)
    simp only [List.cons_append, List.splitOn_cons_eq_if_modifyHead, ih]
    split
    · simp [hs]
    · cases ys with
      | nil => simp [hs]
      | cons z zs => simp [hs]

@[simp] theorem linesOf_nil : linesOf [] = [] := rfl
@[simp] theorem restOf_nil : restOf [] = [] := rfl

theorem linesOf_snoc_newline (s : List UInt8) : linesOf (s ++ [newline]) = linesOf s ++ [restOf s] := by
  unfold linesOf restOf
  rw [splitOn_snoc_newline, List.dropLast_concat, List.dropLast_concat_getLast]

theorem restOf_snoc_newline (s : List UInt8) : restOf (s ++ [newline]) = [] := by
  simp only [restOf, splitOn_snoc_newline, List.getLast_concat]

theorem linesOf_snoc {b : UInt8} (hb : b ≠ newline) (s : List UInt8) :
    linesOf (s ++ [b]) = linesOf s := by
  rw [linesOf, splitOn_snoc hb, List.dropLast_concat]

theorem restOf_snoc {b : UInt8} (hb : b ≠ newline) (s : List UInt8) :
    restOf (s ++ [b]) = restOf s ++ [b] := by
  simp only [restOf, splitOn_snoc hb, List.getLast_concat]

theorem served_snoc (ls : List (List UInt8)) (l : List UInt8) :
    served writes (ls ++ [l]) =
      served writes ls ++ if (List.range ls.length).all writes then [l] else [] := by
  unfold served
  rw [List.zipIdx_append, List.filter_append, List.map_append]
  congr 1
  simp only [List.zipIdx_cons, List.zipIdx_nil, Nat.zero_add, List.filter_cons, List.filter_nil]
  split <;> rfl

/-- While every reply is written every line is served. -/
theorem served_eq_self {ls : List (List UInt8)} (h : (List.range ls.length).all writes = true) :
    served writes ls = ls := by
  induction ls using List.reverseRecOn with
  | nil => rfl
  | append_singleton ls l ih =>
    rw [List.length_append, List.length_singleton, List.range_succ, List.all_append,
      Bool.and_eq_true] at h
    rw [served_snoc, ih h.1, if_pos h.1]

/-! ## What is handled -/

/-- What of a line is in the buffer. -/
def buffered (line : List UInt8) : List UInt8 := line.drop (reqMax * (line.length / reqMax))

/-- The state after the bytes `s` of a client. -/
structure After (s : List UInt8) (t : State) : Prop where
  connected : t.connected = (List.range (linesOf s).length).all writes
  req : t.connected = true → t.req = buffered (restOf s)
  handled : t.handled = (served writes (linesOf s)).map fun l => cString (buffered l)

theorem length_buffered (line : List UInt8) : (buffered line).length = line.length % reqMax := by
  rw [buffered, List.length_drop]
  have := Nat.div_add_mod line.length reqMax
  omega

theorem buffered_snoc (line : List UInt8) (b : UInt8) :
    buffered (line ++ [b]) =
      if (buffered line).length + 1 < reqMax then buffered line ++ [b] else [] := by
  rw [length_buffered]
  unfold buffered
  have hpos : 0 < reqMax := by decide
  have hdm := Nat.div_add_mod line.length reqMax
  have hmod := Nat.mod_lt line.length hpos
  rw [List.length_append, List.length_singleton]
  split
  · next h =>
    have hdiv : (line.length + 1) / reqMax = line.length / reqMax := by
      rw [Nat.div_eq_iff hpos, Nat.mul_comm]
      omega
    rw [hdiv, List.drop_append_of_le_length (by omega)]
  · next h =>
    have hdiv : (line.length + 1) / reqMax = line.length / reqMax + 1 := by
      rw [Nat.div_eq_iff hpos, Nat.mul_comm, Nat.mul_add]
      omega
    apply List.drop_eq_nil_of_le
    rw [hdiv, Nat.mul_add, List.length_append, List.length_singleton]
    omega

theorem after_readByte {s : List UInt8} {t : State} (h : After writes s t) (b : UInt8) :
    After writes (s ++ [b]) (readByte writes t b) := by
  unfold readByte
  cases hc : t.connected with
  | false =>
    -- the reply to some line failed, and no later line is served
    have hall : (List.range (linesOf s).length).all writes = false := h.connected.symm.trans hc
    by_cases hb : b = newline
    · subst hb
      refine ⟨?_, fun hn => absurd (hc.symm.trans hn) Bool.false_ne_true, ?_⟩
      · simp [hc, linesOf_snoc_newline, List.range_succ, hall]
      · simp [linesOf_snoc_newline, served_snoc, hall, h.handled]
    · refine ⟨?_, fun hn => absurd (hc.symm.trans hn) Bool.false_ne_true, ?_⟩
      · rw [linesOf_snoc hb]
        exact h.connected
      · rw [linesOf_snoc hb]
        exact h.handled
  | true =>
    have hall : (List.range (linesOf s).length).all writes = true := h.connected.symm.trans hc
    have hserved := served_eq_self writes hall
    simp only [Bool.not_true, Bool.false_eq_true, if_false]
    split
    · next hb =>
      subst hb
      refine ⟨?_, fun _ => ?_, ?_⟩
      · rw [linesOf_snoc_newline, List.length_append, List.length_singleton, List.range_succ,
          List.all_append, hall, h.handled, List.length_map, hserved]
        simp
      · rw [restOf_snoc_newline]
        rfl
      · simp only [linesOf_snoc_newline, served_snoc, hall, if_true, List.map_append, h.handled,
          h.req hc, List.map_cons, List.map_nil]
    · next hb =>
      have hbuf := buffered_snoc (restOf s) b
      rw [← restOf_snoc hb, ← h.req hc] at hbuf
      split
      · next hlt =>
        refine ⟨?_, fun _ => ?_, ?_⟩
        · rw [linesOf_snoc hb]
          exact hall.symm
        · rw [hbuf, if_pos hlt]
        · rw [linesOf_snoc hb]
          exact h.handled
      · next hlt =>
        refine ⟨?_, fun _ => ?_, ?_⟩
        · rw [linesOf_snoc hb]
          exact hall.symm
        · rw [hbuf, if_neg hlt]
        · rw [linesOf_snoc hb]
          exact h.handled

theorem after_reads {s : List UInt8} {t : State} (h : After writes s t) (reads : List (List UInt8)) :
    After writes (s ++ reads.flatten) (reads.foldl (fun s buf => buf.foldl (readByte writes) s) t) := by
  have hbuf (buf : List UInt8) : ∀ s t, After writes s t →
      After writes (s ++ buf) (buf.foldl (readByte writes) t) := by
    induction buf with
    | nil => exact fun s t h => (List.append_nil s).symm ▸ h
    | cons b buf ih =>
      intro s t h
      have := ih _ _ (after_readByte writes h b)
      rwa [List.append_assoc] at this
  induction reads generalizing s t with
  | nil => exact (List.append_nil s).symm ▸ h
  | cons buf reads ih =>
    have := ih (hbuf buf s t h)
    rwa [List.append_assoc] at this

/-- Nothing is read from a client that is gone. -/
theorem reads_of_gone {t : State} (h : t.connected = false) (reads : List (List UInt8)) :
    reads.foldl (fun s buf => buf.foldl (readByte writes) s) t = t := by
  have hbyte (b : UInt8) : readByte writes t b = t := by simp [readByte, h]
  have hbuf (buf : List UInt8) : buf.foldl (readByte writes) t = t := by
    induction buf with
    | nil => rfl
    | cons b buf ih => rw [List.foldl_cons, hbyte, ih]
  induction reads with
  | nil => rfl
  | cons buf reads ih => rw [List.foldl_cons, hbuf, ih]

/-- A later poll goes on with the bytes where the last one stopped. -/
theorem poll_later {t : State} {k : Tick} (hk : k.accept = none) (hopen : k.closed = false) :
    poll writes t k = k.reads.foldl (fun s buf => buf.foldl (readByte writes) s) t := by
  unfold poll drain
  rw [hopen, hk]
  cases hc : t.connected with
  | true => rfl
  | false => exact (reads_of_gone writes hc k.reads).symm

theorem poll_handled {t : State} {k : Tick} (hk : k.accept = none) :
    (poll writes t k).handled =
      (k.reads.foldl (fun s buf => buf.foldl (readByte writes) s) t).handled := by
  unfold poll drain
  rw [hk]
  cases hc : t.connected with
  | true =>
    simp only [if_true]
    split <;> rfl
  | false => rw [reads_of_gone writes hc k.reads]; rfl

theorem after_later {s : List UInt8} {t : State} (h : After writes s t) {ks : List Tick}
    (halone : ∀ k ∈ ks, k.accept = none) (hopen : ∀ k ∈ ks, k.closed = false) :
    After writes (s ++ (ks.flatMap (·.reads)).flatten) (ks.foldl (poll writes) t) := by
  induction ks generalizing s t with
  | nil => exact (List.append_nil s).symm ▸ h
  | cons k ks ih =>
    simp only [List.forall_mem_cons] at halone hopen
    have hk := after_reads writes h k.reads
    rw [← poll_later writes halone.1 hopen.1] at hk
    rw [List.flatMap_cons, List.flatten_append, ← List.append_assoc]
    exact ih hk halone.2 hopen.2

theorem after_accept : After writes [] ⟨true, [], []⟩ := ⟨rfl, fun _ => rfl, rfl⟩

/-- The requests of a client, however its bytes are split. -/
theorem handled_eq (c : Session) :
    (c.last writes).handled =
      (served writes (linesOf c.stream)).map fun l => cString (buffered l) := by
  unfold Session.last Session.stream
  have hfirst : poll writes c.before c.first = drain writes ⟨true, [], []⟩ c.first := by
    simp [poll, c.free, c.accepted]
  rw [List.foldl_cons, hfirst, List.flatMap_cons, List.flatten_append]
  have hafter := after_reads writes (after_accept writes) c.first.reads
  rw [List.nil_append] at hafter
  rcases List.eq_nil_or_concat c.later with hnil | ⟨ks, k, hks⟩
  · rw [hnil, List.flatMap_nil, List.flatten_nil, List.append_nil, List.foldl_nil]
    unfold drain
    split <;> exact hafter.handled
  · have hopen := c.opened
    have halone := c.alone
    rw [hks, List.concat_eq_append] at hopen halone ⊢
    rw [List.dropLast_cons_of_ne_nil (by simp), List.dropLast_concat, List.forall_mem_cons] at hopen
    have hdrain : drain writes ⟨true, [], []⟩ c.first =
        c.first.reads.foldl (fun s buf => buf.foldl (readByte writes) s) ⟨true, [], []⟩ := by
      simp [drain, hopen.1]
    rw [hdrain]
    have hks' := after_later writes hafter (fun k hk => halone k (List.mem_append_left _ hk)) hopen.2
    have hlast := after_reads writes hks' k.reads
    rw [List.foldl_append, List.foldl_cons, List.foldl_nil,
      poll_handled writes (halone k (by simp)), hlast.handled, List.flatMap_append,
      List.flatten_append, ← List.append_assoc]
    simp

/-! ## When the framing is exact -/

theorem buffered_of_fits {line : List UInt8} (h : Fits line) : buffered line = line := by
  rw [buffered, Nat.div_eq_of_lt h]
  rfl

theorem cString_eq_iff (line : List UInt8) : cString line = line ↔ 0 ∉ line := by
  rw [cString, List.takeWhile_eq_self_iff]
  simp only [decide_eq_true_eq]
  exact ⟨fun h h0 => h 0 h0 rfl, fun h b hb h0 => h (h0 ▸ hb)⟩

/-- A map gives what a filter keeps if it changes nothing and all is kept. -/
theorem map_eq_filter_iff {α : Type} (f : α → α) (p : α → Bool) (l : List α) :
    l.map f = l.filter p ↔ ∀ x ∈ l, p x = true ∧ f x = x := by
  have hself : l.map f = l ↔ ∀ x ∈ l, f x = x := by
    have hid : l.map f = l.map id ↔ ∀ x ∈ l, f x = x := List.map_eq_map_iff
    rwa [List.map_id] at hid
  constructor
  · intro h
    have hlen := congrArg List.length h
    rw [List.length_map] at hlen
    have hall := List.length_filter_eq_length_iff.mp hlen.symm
    rw [List.filter_eq_self.mpr hall] at h
    exact fun x hx => ⟨hall x hx, hself.mp h x hx⟩
  · intro h
    rw [List.filter_eq_self.mpr fun x hx => (h x hx).1]
    exact hself.mpr fun x hx => (h x hx).2

/-- The session that sends `stream` in one read. -/
def atOnce (stream : List UInt8) : Session where
  before := ⟨false, [], []⟩
  free := rfl
  first := ⟨some true, [stream], false⟩
  accepted := rfl
  later := []
  alone := by simp
  opened := by simp

theorem stream_atOnce (stream : List UInt8) : (atOnce stream).stream = stream := by
  simp [Session.stream, atOnce]

/-- The requests of every session are the lines that fit exactly if every line that is served fits
and has no NUL. -/
theorem framing_exact_iff (stream : List UInt8) :
    FramingExact writes stream ↔ ∀ l ∈ served writes (linesOf stream), Fits l ∧ 0 ∉ l := by
  have hsame : FramingExact writes stream ↔
      ((served writes (linesOf stream)).map fun l => cString (buffered l)) =
        (served writes (linesOf stream)).filter (Fits ·) := by
    constructor
    · intro h
      rw [← h (atOnce stream) (stream_atOnce stream), handled_eq, stream_atOnce]
    · rintro h c rfl
      rw [handled_eq, h]
  rw [hsame, map_eq_filter_iff]
  refine forall₂_congr fun l _ => ?_
  rw [decide_eq_true_eq]
  refine and_congr_right fun hfits => ?_
  rw [buffered_of_fits hfits, cString_eq_iff]

/-- The requests of a stream that is one line. -/
theorem handled_line {line : List UInt8} (h : newline ∉ line) :
    ((atOnce (line ++ [newline])).last fun _ => true).handled = [cString (buffered line)] ∧
      served (fun _ => true) (linesOf (line ++ [newline])) = [line] := by
  have hsplit : line.splitOn newline = [line] := by
    rw [List.splitOn_eq_splitOnP]
    exact List.splitOnP_eq_singleton fun b hb => beq_false_of_ne fun he => h (he ▸ hb)
  have hlines : linesOf (line ++ [newline]) = [line] := by
    rw [linesOf_snoc_newline]
    simp only [linesOf, restOf, hsplit]
    rfl
  have hserved : served (fun _ => true) [line] = [line] := served_eq_self _ rfl
  rw [handled_eq, stream_atOnce, hlines, hserved]
  exact ⟨rfl, rfl⟩

/-- `4096` letters `A`, and then `POKE`. -/
def overlong : List UInt8 := List.replicate reqMax 65 ++ [80, 79, 75, 69]

/-- The end of the line is handled. -/
theorem not_framing_exact :
    ((atOnce (overlong ++ [newline])).last fun _ => true).handled = [[80, 79, 75, 69]] ∧
      ¬ FramingExact (fun _ => true) (overlong ++ [newline]) := by
  have hfree : newline ∉ overlong := by
    rw [overlong, List.mem_append, List.mem_replicate]
    decide
  have hlen : overlong.length = reqMax + 4 := by
    rw [overlong, List.length_append, List.length_replicate]
    rfl
  have hend : buffered overlong = [80, 79, 75, 69] := by
    rw [buffered, hlen]
    exact List.drop_left' List.length_replicate
  obtain ⟨hhandled, hserved⟩ := handled_line hfree
  refine ⟨by rw [hhandled, hend]; rfl, fun h => ?_⟩
  have hexact := congrArg List.length (h (atOnce _) (stream_atOnce _))
  have hlong : ¬ Fits overlong := by
    rw [Fits, hlen]
    omega
  rw [hhandled, hserved, List.filter_singleton, decide_eq_false hlong] at hexact
  exact absurd hexact (by decide)

end Arche.Runtime.InspectRequests
