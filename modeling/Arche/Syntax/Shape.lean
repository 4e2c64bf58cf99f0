import Arche.Syntax.Progress

/-!
# The shape of bodies

A node that owns a body has its braces, and what stands between them, among its
own children. The body is in order if only comments, `;` and statement nodes
stand there. This module says so (`shaped`), and gives the rules by which an
action of the parser keeps the items built so far in order: it leaves alone what
was there before its checkpoint (`base`), and, with `fl` on, puts no brace
behind it that is not inside a node. The rules are about the grammar's reading
of a text, where it is clean.
-/

namespace Arche.Syntax

/-- The nodes with a body among their children. -/
@[reducible]
def isBodyKind : SyntaxNodeKind → Bool
  | .procExpr | .funcExpr | .policyExpr | .mapExpr | .eachExpr | .systemExpr => true
  | .block | .ifStmt | .forStmt | .matchArm | .eachFieldStmt => true
  | _ => false

/-- The other nodes. -/
@[reducible]
def isPlainKind : SyntaxNodeKind → Bool
  | .procExpr | .funcExpr | .policyExpr | .mapExpr | .eachExpr | .systemExpr => false
  | .block | .ifStmt | .forStmt | .matchArm | .eachFieldStmt => false
  | _ => true

theorem isBodyKind_of_plain {k : SyntaxNodeKind} (h : isPlainKind k = true) : isBodyKind k = false := by
  cases k <;> first | rfl | cases h

/-- The nodes `parse_statement` makes. -/
@[reducible]
def isStmtKind : SyntaxNodeKind → Bool
  | .bindStmt | .assignStmt | .exprStmt | .multiBindStmt | .procCallStmt => true
  | .breakStmt | .continueStmt | .returnStmt => true
  | .ifStmt | .forStmt | .matchStmt | .eachFieldStmt | .block => true
  | _ => false

/-- Outside of all bodies of a node, or in one of them. -/
inductive Side where
  | outside
  | inside
  deriving DecidableEq, Repr

/-- The next child of a node that owns bodies; `none` if it is out of place. -/
def sideStep : Side → Elem → Option Side
  | .outside, .token kind _ _ _ _ =>
    if kind = .lbrace then some .inside else if kind = .rbrace then none else some .outside
  | .outside, .node _ _ => some .outside
  | .inside, .token kind _ _ _ _ =>
    if kind = .rbrace then some .outside
    else if kind = .comment ∨ kind = .semi then some .inside
    else none
  | .inside, .node kind _ => if isStmtKind kind then some .inside else none

def sideOf (d : Side) (es : List Elem) : Option Side := es.foldlM sideStep d

mutual

/-- Every body in the tree is closed and has only comments, `;` and statement nodes in it. -/
def Elem.shaped : Elem → Bool
  | .token _ _ _ _ _ => true
  | .node kind children =>
    shapedAll children &&
      (!isBodyKind kind || decide (sideOf .outside children = some .outside))

def shapedAll : List Elem → Bool
  | [] => true
  | e :: es => e.shaped && shapedAll es

end

theorem shapedAll_iff {es : List Elem} : shapedAll es = true ↔ ∀ e ∈ es, e.shaped = true := by
  induction es with
  | nil => simp [shapedAll]
  | cons e es ih => simp [shapedAll, ih]

theorem sideOf_append (d : Side) (es fs : List Elem) :
    sideOf d (es ++ fs) = (sideOf d es).bind fun d' => sideOf d' fs := by
  simp [sideOf, List.foldlM_append, bind]

def Elem.isBrace : Elem → Bool
  | .token kind _ _ _ _ => kind == .lbrace || kind == .rbrace
  | .node _ _ => false

/-- With `fl` on, no brace that is not inside a node. -/
def Tidy (fl : Bool) (es : List Elem) : Prop := fl = true → ∀ e ∈ es, e.isBrace = false

theorem sideOf_tidy {es : List Elem} (h : Tidy true es) :
    sideOf .outside es = some .outside := by
  induction es with
  | nil => rfl
  | cons e es ih =>
    have he : e.isBrace = false := h rfl e (by simp)
    have hes : Tidy true es := fun _ e' he' => h rfl e' (by simp [he'])
    have hstep : sideStep .outside e = some .outside := by
      cases e with
      | node _ _ => rfl
      | token kind _ _ _ _ =>
        simp only [Elem.isBrace, Bool.or_eq_false_iff, beq_eq_false_iff_ne] at he
        simp [sideStep, he]
    have := ih hes
    unfold sideOf at this ⊢
    rw [List.foldlM_cons, hstep]
    exact this

/-! ## States -/

open P Arche.Syntax.Parser MoveLemmas

/-- The items from `base` on are tidy, and all items are shaped. -/
structure Good (fl : Bool) (base : Nat) (s : Parser) : Prop where
  le : base ≤ s.items.length
  tidy : Tidy fl (s.items.drop base)
  shaped : ∀ e ∈ s.items, e.shaped = true

/-- `t` is good if `s` was, and has the same items below `base`. -/
def Keeps (fl : Bool) (base : Nat) (s t : Parser) : Prop :=
  Good fl base s → Good fl base t ∧ t.items.take base = s.items.take base

theorem Keeps.refl (fl : Bool) (base : Nat) (s : Parser) : Keeps fl base s s := fun h => ⟨h, rfl⟩

theorem Keeps.trans {fl : Bool} {base : Nat} {s t u : Parser} (h1 : Keeps fl base s t)
    (h2 : Keeps fl base t u) : Keeps fl base s u := by
  intro hs
  obtain ⟨ht, htake⟩ := h1 hs
  obtain ⟨hu, htake'⟩ := h2 ht
  exact ⟨hu, htake'.trans htake⟩

theorem keeps_of_items {fl : Bool} {base : Nat} {s t : Parser} (h : t.items = s.items) :
    Keeps fl base s t := by
  intro hs
  refine ⟨⟨?_, ?_, ?_⟩, by rw [h]⟩
  · rw [h]; exact hs.le
  · rw [h]; exact hs.tidy
  · rw [h]; exact hs.shaped

theorem keeps_append {fl : Bool} {base : Nat} {s t : Parser} {new : List Elem}
    (h : t.items = s.items ++ new) (htidy : Tidy fl new) (hshaped : ∀ e ∈ new, e.shaped = true) :
    Keeps fl base s t := by
  intro hs
  have hle := hs.le
  refine ⟨⟨?_, ?_, ?_⟩, ?_⟩
  · rw [h, List.length_append]
    omega
  · rw [h, List.drop_append_of_le_length hle]
    intro hfl e he
    rcases List.mem_append.mp he with he | he
    · exact hs.tidy hfl e he
    · exact htidy hfl e he
  · intro e he
    rw [h] at he
    rcases List.mem_append.mp he with he | he
    · exact hs.shaped e he
    · exact hshaped e he
  · rw [h, List.take_append_of_le_length hle]

/-- A wrap behind `base`. A node that owns bodies must have them in order. -/
theorem keeps_wrap {fl : Bool} {base cp : Nat} {s : Parser} {kind : SyntaxNodeKind} (hcp : base ≤ cp)
    (hbody : isBodyKind kind = true → sideOf .outside (s.items.drop cp) = some .outside) :
    Keeps fl base s (s.wrap cp kind) := by
  intro hs
  unfold Parser.wrap
  split
  · exact ⟨hs, rfl⟩
  next hlt =>
  have hlen : cp < s.items.length := by omega
  have htakelen : (s.items.take cp).length = cp := by
    rw [List.length_take]
    omega
  have hle : base ≤ (s.items.take cp).length := by omega
  refine ⟨⟨?_, ?_, ?_⟩, ?_⟩
  · simp only [List.length_append, htakelen]
    omega
  · simp only [List.drop_append_of_le_length hle]
    intro hfl e he
    rcases List.mem_append.mp he with he | he
    · apply hs.tidy hfl e
      rw [List.drop_take] at he
      exact List.mem_of_mem_take he
    · rw [List.mem_singleton.mp he]
      rfl
  · intro e he
    rcases List.mem_append.mp he with he | he
    · exact hs.shaped e (List.mem_of_mem_take he)
    · rw [List.mem_singleton.mp he]
      have hall : shapedAll (s.items.drop cp) = true :=
        shapedAll_iff.mpr fun e he => hs.shaped e (List.mem_of_mem_drop he)
      cases hk : isBodyKind kind with
      | false => simp [Elem.shaped, hall, hk]
      | true => simp [Elem.shaped, hall, hbody hk]
  · simp only [List.take_append_of_le_length hle, List.take_take]
    rw [Nat.min_eq_left hcp]

/-- Below the checkpoint nothing has to be looked at. -/
theorem Keeps.lower {base : Nat} {s t : Parser} (h : Keeps false s.items.length s t) :
    Keeps false base s t := by
  intro hs
  have hgood : Good false s.items.length s := ⟨Nat.le_refl _, nofun, hs.shaped⟩
  obtain ⟨ht, htake⟩ := h hgood
  have hle := hs.le
  refine ⟨⟨Nat.le_trans hle ht.le, nofun, ht.shaped⟩, ?_⟩
  have := congrArg (List.take base) htake
  rw [List.take_take, List.take_take, Nat.min_eq_left hle] at this
  exact this

/-- Everything since a checkpoint, made one node. -/
theorem keeps_node {base : Nat} {s t : Parser} {kind : SyntaxNodeKind}
    (h : Good false s.items.length s → Good false s.items.length t ∧
      t.items.take s.items.length = s.items.take s.items.length ∧
        (isBodyKind kind = true →
          sideOf .outside (t.items.drop s.items.length) = some .outside)) :
    Keeps true base s (t.wrap s.items.length kind) := by
  intro hs
  have hgood : Good false s.items.length s := ⟨Nat.le_refl _, nofun, hs.shaped⟩
  obtain ⟨ht, htake, hbody⟩ := h hgood
  have hwrap : Keeps false s.items.length t (t.wrap s.items.length kind) :=
    keeps_wrap (Nat.le_refl _) hbody
  have hshaped := (hwrap ht).1.shaped
  rw [List.take_length] at htake
  unfold Parser.wrap at hshaped ⊢
  split at hshaped
  · next hle =>
    rw [if_pos hle]
    have hitems : t.items = s.items := by rw [← htake, List.take_of_length_le hle]
    exact keeps_of_items hitems hs
  · next hlt =>
    rw [if_neg hlt]
    have hitems : t.items.take s.items.length ++
        [.node kind (t.items.drop s.items.length)] =
          s.items ++ [.node kind (t.items.drop s.items.length)] := by rw [htake]
    refine keeps_append hitems ?_ (fun e he => hshaped e (List.mem_append_right _ he)) hs
    intro _ e he
    rw [List.mem_singleton.mp he]
    rfl

/-! ## What `advance` appends -/

def isComment : Elem → Bool
  | .token kind _ _ _ _ => kind == .comment
  | .node _ _ => false

/-- The leaves a call of `advance` appends: the token in hand, then comments. -/
theorem advance_items (s : Parser) :
    ∃ took cs, s.advance.items = s.items ++ (took ++ cs) ∧ (∀ e ∈ cs, isComment e = true) ∧
      (took = [] ∧ (s.current.kind = .eof ∨ s.current.kind = .error) ∨
        ∃ a b c d, took = [.token s.current.kind a b c d]) := by
  have hskip : ∀ (n : Nat) (t : Parser), ∃ cs, (t.skipComments n).items = t.items ++ cs ∧
      ∀ e ∈ cs, isComment e = true := by
    intro n
    induction n with
    | zero =>
      intro t
      unfold skipComments
      split <;> exact ⟨[], by simp [cut], by simp⟩
    | succ n ih =>
      intro t
      unfold skipComments
      split
      · next hk =>
        obtain ⟨cs, hcs, hcom⟩ := ih (t.emit t.current).next
        refine ⟨_ :: cs, by rw [hcs]; simp [next, emit]; rfl, ?_⟩
        intro e he
        rcases List.mem_cons.mp he with rfl | he
        · simp [isComment, hk]
        · exact hcom e he
      · exact ⟨[], by simp, by simp⟩
  obtain ⟨cs, hcs, hcom⟩ := hskip maxCommentLoop s.take.next
  have hflag : s.advance.items = (s.take.next.skipComments maxCommentLoop).items := by
    unfold advance flagError
    split <;> rfl
  have hnext : s.take.next.items = s.take.items := rfl
  by_cases hk : s.current.kind ≠ .eof ∧ s.current.kind ≠ .error
  · refine ⟨[.token s.current.kind (s.current.start % 4294967296)
      (s.current.length % 4294967296) s.current.line s.current.column], cs, ?_, hcom,
      Or.inr ⟨_, _, _, _, rfl⟩⟩
    rw [hflag, hcs, hnext, Parser.take, if_pos hk, ← List.append_assoc]
    rfl
  · refine ⟨[], cs, ?_, hcom, Or.inl ⟨rfl, by tauto⟩⟩
    rw [hflag, hcs, hnext, Parser.take, if_neg hk]
    rfl

theorem isBrace_of_isComment {e : Elem} (h : isComment e = true) : e.isBrace = false := by
  cases e with
  | node _ _ => rfl
  | token kind _ _ _ _ =>
    have : kind = .comment := by simpa [isComment] using h
    simp [Elem.isBrace, this]

theorem shaped_of_isComment {e : Elem} (h : isComment e = true) : e.shaped = true := by
  cases e with
  | node _ _ => cases h
  | token _ _ _ _ _ => rfl

theorem keeps_advance {fl : Bool} {base : Nat} {s : Parser}
    (h : fl = true → s.current.kind ≠ .lbrace ∧ s.current.kind ≠ .rbrace) :
    Keeps fl base s s.advance := by
  obtain ⟨took, cs, hitems, hcs, htook⟩ := advance_items s
  refine keeps_append hitems ?_ ?_
  · intro hfl e he
    rcases List.mem_append.mp he with he | he
    · obtain ⟨hl, hr⟩ := h hfl
      rcases htook with ⟨rfl, -⟩ | ⟨a, b, c, d, rfl⟩
      · cases he
      · rw [List.mem_singleton.mp he]
        simp [Elem.isBrace, hl, hr]
    · exact isBrace_of_isComment (hcs e he)
  · intro e he
    rcases List.mem_append.mp he with he | he
    · rcases htook with ⟨rfl, -⟩ | ⟨a, b, c, d, rfl⟩
      · cases he
      · rw [List.mem_singleton.mp he]
        rfl
    · exact shaped_of_isComment (hcs e he)

/-! ## Sides -/

/-- The side of the items from `base` on. -/
def sideAt (base : Nat) (s : Parser) : Option Side := sideOf .outside (s.items.drop base)

theorem sideAt_append {base : Nat} {s t : Parser} {new : List Elem} (hle : base ≤ s.items.length)
    (h : t.items = s.items ++ new) : sideAt base t = (sideAt base s).bind fun d => sideOf d new := by
  unfold sideAt
  rw [h, List.drop_append_of_le_length hle, sideOf_append]

theorem sideOf_comments {d : Side} {cs : List Elem} (h : ∀ e ∈ cs, isComment e = true) :
    sideOf d cs = some d := by
  induction cs with
  | nil => rfl
  | cons e es ih =>
    have hstep : sideStep d e = some d := by
      have he := h e (by simp)
      cases e with
      | node _ _ => cases he
      | token kind _ _ _ _ =>
        have hk : kind = .comment := by simpa [isComment] using he
        cases d <;> simp [sideStep, hk]
    have := ih fun e' he' => h e' (by simp [he'])
    unfold sideOf at this ⊢
    rw [List.foldlM_cons, hstep]
    exact this

/-- The token in hand decides the side. -/
theorem sideAt_advance {base : Nat} {s : Parser} {d d' : Side} (hle : base ≤ s.items.length)
    (hside : sideAt base s = some d) (hk : s.current.kind ≠ .eof ∧ s.current.kind ≠ .error)
    (hstep : ∀ a b c e, sideStep d (.token s.current.kind a b c e) = some d') :
    sideAt base s.advance = some d' := by
  obtain ⟨took, cs, hitems, hcs, htook⟩ := advance_items s
  rcases htook with ⟨-, hend⟩ | ⟨a, b, c, e, rfl⟩
  · tauto
  · rw [sideAt_append hle hitems, hside]
    have hcons : sideOf d ([.token s.current.kind a b c e] ++ cs) =
        (sideStep d (.token s.current.kind a b c e)).bind fun d => sideOf d cs := by
      simp [sideOf, bind]
    rw [Option.bind_some, hcons, hstep, Option.bind_some, sideOf_comments hcs]

/-! ## Actions -/

section

variable {α β σ : Type} {fl : Bool} {base : Nat}

/-- Where its reading is clean, `p` keeps the items good. -/
class Tame (fl : Bool) (base : Nat) (p : P α) : Prop where
  out : ∀ {s a t}, p.run .grammar s = some (some a, t) → t.Clean → Keeps fl base s t

/-- The results of `p` are all accepted by `g`. -/
class Returns (p : P α) (g : α → Bool) : Prop where
  out : ∀ {m s a t}, p.run m s = some (some a, t) → g a = true

class IsFalse (b : Bool) : Prop where
  out : b = false

instance : IsFalse false := ⟨rfl⟩

class IsTrue (b : Bool) : Prop where
  out : b = true

instance : IsTrue true := ⟨rfl⟩

instance (c : Prop) [Decidable c] (k k' : SyntaxNodeKind) [h : IsFalse (isBodyKind k)]
    [h' : IsFalse (isBodyKind k')] : IsFalse (isBodyKind (if c then k else k')) := by
  split <;> assumption

instance (c : Prop) [Decidable c] (k k' : SyntaxNodeKind) [h : IsTrue (isPlainKind k)]
    [h' : IsTrue (isPlainKind k')] : IsTrue (isPlainKind (if c then k else k')) := by
  split <;> assumption

/-- Where braces must stay inside nodes, this token may not be a brace. -/
@[reducible]
def barred (fl : Bool) : TokenKind → Bool
  | .lbrace | .rbrace => fl
  | _ => false

/-- Tokens among which there is no brace. -/
class NoBraceIn (f : TokenKind → Bool) : Prop where
  lbrace : f .lbrace = false
  rbrace : f .rbrace = false

instance (a : α) : Tame fl base (pure a : P α) := ⟨fun h _ => by cases h; exact keeps_of_items rfl⟩

instance (f : Parser → α) : Tame fl base (ask f) := ⟨fun h _ => by cases h; exact keeps_of_items rfl⟩

instance (k : TokenKind) : Tame fl base (check k) := ⟨fun h _ => by cases h; exact keeps_of_items rfl⟩

instance (b : Bool) : Tame fl base (setInForeign b) :=
  ⟨fun h _ => by cases h; exact keeps_of_items rfl⟩

instance (message : String) : Tame fl base (report message) := by
  constructor
  intro s a t ht hc
  cases ht
  exact absurd hc (not_clean_of_panic (report_panic s message))

instance (message : String) : Tame fl base (fail message : P α) := ⟨fun h => by cases h⟩

theorem matchIf_keeps {f : TokenKind → Bool} {hf : f .eof = false} {s t : Parser} {b : Bool}
    (hno : fl = true → f .lbrace = false ∧ f .rbrace = false)
    (h : (matchIf f hf).run .grammar s = some (some b, t)) : Keeps fl base s t := by
  have hrun : (matchIf f hf).run .grammar s =
      some (some (if f s.current.kind then (true, s.advance) else (false, s)).1,
        (if f s.current.kind then (true, s.advance) else (false, s)).2) := rfl
  rw [hrun] at h
  cases hk : f s.current.kind with
  | true =>
    simp only [hk, if_true] at h
    cases h
    apply keeps_advance
    intro hfl
    obtain ⟨hl, hr⟩ := hno hfl
    constructor
    · intro he
      rw [he, hl] at hk
      cases hk
    · intro he
      rw [he, hr] at hk
      cases hk
  | false =>
    simp only [hk, Bool.false_eq_true, if_false] at h
    cases h
    exact keeps_of_items rfl

instance (f : TokenKind → Bool) (hf : f .eof = false) : Tame false base (matchIf f hf) :=
  ⟨fun h _ => matchIf_keeps nofun h⟩

instance (f : TokenKind → Bool) (hf : f .eof = false) [h : NoBraceIn f] :
    Tame fl base (matchIf f hf) :=
  ⟨fun hrun _ => matchIf_keeps (fun _ => ⟨h.lbrace, h.rbrace⟩) hrun⟩

instance (k : TokenKind) (hk : (TokenKind.eof == k) = false) [h : IsFalse (barred fl k)] :
    Tame fl base (matchTok k hk) := by
  constructor
  intro s b t hrun _
  refine matchIf_keeps (fun hfl => ?_) hrun
  have hb := h.out
  rw [hfl] at hb
  constructor
  · cases k <;> first | rfl | cases hb
  · cases k <;> first | rfl | cases hb

instance (k : Nat) (kind : SyntaxNodeKind) [hk : IsFalse (isBodyKind kind)] :
    Tame fl base (wrap (base + k) kind) := by
  constructor
  intro s a t ht _
  cases ht
  exact keeps_wrap (Nat.le_add_right _ _) fun h => by rw [hk.out] at h; cases h

instance (c : Prop) [Decidable c] (p q : P α) [Tame fl base p] [Tame fl base q] :
    Tame fl base (if c then p else q) := by
  split <;> infer_instance

theorem Tame.bind_of {p : P α} {f : α → P β} (hp : Tame fl base p)
    (hf : ∀ {s a t b u}, p.run .grammar s = some (some a, t) → t.Clean →
      (f a).run .grammar t = some (some b, u) → u.Clean → Keeps fl base t u) :
    Tame fl base (p >>= f) := by
  constructor
  intro s b u h hc
  obtain ⟨a, t, ht, hu⟩ := bind_some h
  have hct : t.Clean := Clean.of_follows ((f a).reach hu) hc
  exact (hp.out ht hct).trans (hf ht hct hu hc)

instance (p : P α) (f : α → P β) [hp : Tame fl base p] [hf : ∀ a, Tame fl base (f a)] :
    Tame fl base (p >>= f) :=
  hp.bind_of fun {_ a _ _ _} _ _ hu hc => (hf a).out hu hc

instance (f : α → β) (p : P α) [Tame fl base p] : Tame fl base (f <$> p) :=
  inferInstanceAs (Tame fl base (p >>= fun a => pure (f a)))

/-- A checkpoint taken now lies behind `base`. -/
instance (priority := 10500) (f : Nat → P β) [hf : ∀ k, Tame fl base (f (base + k))] :
    Tame fl base (checkpoint >>= f) := by
  constructor
  intro s b t h hc hs
  obtain ⟨k, hk⟩ := Nat.exists_eq_add_of_le hs.le
  have h' : (f s.items.length).run .grammar s = some (some b, t) := h
  rw [hk] at h'
  exact (hf k).out h' hc hs

instance (p : P α) [hp : Tame fl base p] : Tame fl base (attempt p) := by
  constructor
  intro s o t h hc
  obtain ⟨⟨o', u⟩, hrun, he⟩ := Option.map_eq_some_iff.mp h
  cases he
  cases o' with
  | none => exact absurd hc (not_clean_of_panic (p.failed hrun))
  | some a => exact hp.out hrun hc

instance (p : P α) (f : Parser → Parser) (h1 : ∀ s, Reach s (f s))
    (h2 : ∀ s, s.panicMode = true → (f s).panicMode = true) [hp : Tame fl base p] :
    Tame fl base (onFail p f h1 h2) :=
  ⟨fun h hc => hp.out (onFail_some h) hc⟩

instance (p : P α) [hp : Tame fl base p] : Tame fl base (withoutBraceLit p) := by
  constructor
  intro s a t h hc
  obtain ⟨⟨o, u⟩, hrun, he⟩ := Option.map_eq_some_iff.mp h
  cases he
  have hset : Keeps fl base s { s with noBraceLit := true } := keeps_of_items rfl
  exact hset.trans ((hp.out hrun hc).trans (keeps_of_items rfl))

instance (p : P α) [hp : Tame fl base p] : Tame fl base (recover p) := by
  constructor
  intro s o t h hc
  simp only [recover] at h
  split at h
  · cases h
  · next u hu =>
    cases h
    have hcu : u.Clean := Clean.of_follows (follows_synchronize u) hc
    exact absurd hcu (not_clean_of_panic (p.failed hu))
  · next a u hu =>
    cases h
    exact hp.out hu hc

theorem loopRun_keeps {body : σ → P (Bool × σ)} (hb : ∀ a, Tame fl base (body a)) {n : Nat} {a b : σ}
    {s t : Parser} (h : loopRun (fun a => (body a).run .grammar) n a s = some (some b, t))
    (hc : t.Clean) : Keeps fl base s t := by
  induction n generalizing a s with
  | zero => cases h
  | succ n ih =>
    unfold loopRun at h
    split at h
    · cases h
    · cases h
    · next u hu =>
      cases h
      exact (hb a).out hu hc
    · next b' u hu =>
      split at h
      · have hspec := loopRun_spec (fun {a} => (body a).reach) (fun {a} => (body a).failed) h
        exact ((hb a).out hu (Clean.of_follows hspec.1 hc)).trans (ih h)
      · cases h

instance (init : σ) (body : σ → P (Bool × σ)) [hb : ∀ a, Tame fl base (body a)] :
    Tame fl base (loopOn init body) :=
  ⟨fun h hc => loopRun_keeps hb h hc⟩

/-- What the rounds of a loop keep of its variable. -/
theorem loopRun_result {body : σ → P (Bool × σ)} {g : σ → Bool}
    (hb : ∀ a, g a = true → Returns (body a) fun r => g r.2) {m : Mode} {n : Nat} {a b : σ}
    {s t : Parser} (ha : g a = true)
    (h : loopRun (fun a => (body a).run m) n a s = some (some b, t)) : g b = true := by
  induction n generalizing a s with
  | zero => cases h
  | succ n ih =>
    unfold loopRun at h
    split at h
    · cases h
    · cases h
    · next u hu =>
      cases h
      exact (hb a ha).out hu
    · next b' u hu =>
      split at h
      · exact ih ((hb a ha).out hu) h
      · cases h

end

/-! ## Results -/

section

variable {α β : Type} (g : α → Bool)

instance (a : α) [h : IsTrue (g a)] : Returns (pure a) g := ⟨fun hr => by cases hr; exact h.out⟩

instance (message : String) : Returns (fail message) g := ⟨fun h => by cases h⟩

instance (c : Prop) [Decidable c] (p q : P α) [Returns p g] [Returns q g] :
    Returns (if c then p else q) g := by
  split <;> infer_instance

instance (p : P β) (f : β → P α) [hf : ∀ b, Returns (f b) g] : Returns (p >>= f) g := by
  constructor
  intro m s a t h
  obtain ⟨b, u, -, ht⟩ := bind_some h
  exact (hf b).out ht

instance (p : P α) (f : Parser → Parser) (h1 : ∀ s, Reach s (f s))
    (h2 : ∀ s, s.panicMode = true → (f s).panicMode = true) [hp : Returns p g] :
    Returns (onFail p f h1 h2) g :=
  ⟨fun h => hp.out (onFail_some h)⟩

instance (k : TokenKind) (message : String) (hk : k ≠ .eof) :
    Returns (failPast k message hk) g := by
  unfold failPast
  infer_instance

end

section

variable {α : Type} {fl : Bool} {base : Nat}

instance (k : TokenKind) (message : String) (hk : (TokenKind.eof == k) = false)
    [IsFalse (barred fl k)] : Tame fl base (expect k message hk) := by
  unfold expect
  infer_instance

instance (f : TokenKind → Bool) (message : String) (hf : f .eof = false) :
    Tame false base (expectIf f message hf) := by
  unfold expectIf
  infer_instance

instance (k : TokenKind) (message : String) (hk : (TokenKind.eof == k) = false)
    [IsFalse (barred fl k)] : Tame fl base (closing k message hk) := by
  unfold closing
  infer_instance

instance (p : P α) (message : String) [Tame fl base p] : Tame fl base (orReport p message) := by
  unfold orReport
  infer_instance

instance (p : P α) (cp : Nat) (kind : SyntaxNodeKind) [Tame fl base p] :
    Tame fl base (orWrap p cp kind) := by
  unfold orWrap
  infer_instance

instance (k : TokenKind) (message : String) (hk : k ≠ .eof) :
    Tame fl base (failPast k message hk : P α) := by
  unfold failPast
  infer_instance

instance (body : P Bool) [Tame fl base body] : Tame fl base (loop body) := by
  unfold loop
  infer_instance

instance (k : TokenKind) (body : P Unit) (hk : (TokenKind.eof == k) = false) [IsFalse (barred fl k)]
    [Tame fl base body] : Tame fl base (whileTok k body hk) := by
  unfold whileTok
  infer_instance

instance (close : Option TokenKind) : Tame fl base (more close) := by
  unfold more
  infer_instance

instance (item : P Unit) (close : Option TokenKind) [Tame fl base item] :
    Tame fl base (sepBy item close) := by
  unfold sepBy
  infer_instance

instance (close : TokenKind) (item : P Bool) [Tame fl base item] :
    Tame fl base (untilTok close item) := by
  unfold untilTok
  infer_instance

end

end Arche.Syntax
