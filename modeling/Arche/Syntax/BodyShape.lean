import Arche.Syntax.Shape

/-!
# The bodies of a clean reading

Every function of the parser keeps the bodies in order where the grammar's
reading is clean. Most put no brace outside of a node (`Tame true`); those that
do either make a node that owns no body, or read a body with both its braces
(`Sides .outside .outside`).
-/

namespace Arche.Syntax

set_option synthInstance.maxSize 1000000

open P Arche.Syntax.Parser MoveLemmas

variable {α β : Type} {fl : Bool} {base : Nat}

/-! ## Actions without braces -/

/-- What a tame action appends. -/
theorem tame_append {p : P α} (hp : ∀ b, Tame true b p) {s t : Parser} {a : α}
    (h : p.run .grammar s = some (some a, t)) (hc : t.Clean) (hs : ∀ e ∈ s.items, e.shaped = true) :
    ∃ new, t.items = s.items ++ new ∧ Tidy true new ∧ ∀ e ∈ t.items, e.shaped = true := by
  have hgood : Good true s.items.length s :=
    ⟨Nat.le_refl _, fun _ e he => by simp at he, hs⟩
  obtain ⟨ht, htake⟩ := (hp s.items.length).out h hc hgood
  refine ⟨t.items.drop s.items.length, ?_, ht.tidy, ht.shaped⟩
  rw [List.take_length] at htake
  rw [← htake, List.length_take, Nat.min_eq_left ht.le, List.take_append_drop]

theorem tame_of_all {p : P α} (hp : ∀ b, Tame true b p) : Tame fl base p := by
  constructor
  intro s a t h hc hs
  obtain ⟨new, hnew, htidy, hshaped⟩ := tame_append hp h hc hs.shaped
  exact keeps_append hnew (fun _ => htidy rfl)
    (fun e he => hshaped e (by rw [hnew]; exact List.mem_append_right _ he)) hs

/-! ## Actions that cross braces -/

/-- `p` takes the items from `base` on from side `d` to side `d'`. -/
class Sides (d d' : Side) (base : Nat) (p : P α) : Prop where
  out : ∀ {s a t}, p.run .grammar s = some (some a, t) → t.Clean → Good false base s →
    sideAt base s = some d →
      Good false base t ∧ t.items.take base = s.items.take base ∧ sideAt base t = some d'

instance (priority := low) (p : P α) [hp : ∀ b, Tame true b p] :
    Sides .outside .outside base p := by
  constructor
  intro s a t h hc hs hside
  obtain ⟨new, hnew, htidy, hshaped⟩ := tame_append hp h hc hs.shaped
  have hkeep : Keeps false base s t := keeps_append hnew (fun h => by cases h)
    fun e he => hshaped e (by rw [hnew]; exact List.mem_append_right _ he)
  obtain ⟨ht, htake⟩ := hkeep hs
  refine ⟨ht, htake, ?_⟩
  rw [sideAt_append hs.le hnew, hside]
  exact sideOf_tidy htidy

instance (d : Side) (a : α) : Sides d d base (pure a : P α) := by
  constructor
  intro s b t h _ hs hside
  cases h
  exact ⟨hs, rfl, hside⟩

instance (d d' : Side) (message : String) : Sides d d' base (fail message : P α) :=
  ⟨fun h => by cases h⟩

instance (d d' : Side) (c : Prop) [Decidable c] (p q : P α) [Sides d d' base p] [Sides d d' base q] :
    Sides d d' base (if c then p else q) := by
  split <;> infer_instance

theorem Sides.bind {d e d' : Side} {p : P α} {f : α → P β} (hp : Sides d e base p)
    (hf : ∀ a, Sides e d' base (f a)) : Sides d d' base (p >>= f) := by
  constructor
  intro s b u h hc hs hside
  obtain ⟨a, t, ht, hu⟩ := bind_some h
  have hct : t.Clean := Clean.of_follows ((f a).reach hu) hc
  obtain ⟨hgood, htake, hside'⟩ := hp.out ht hct hs hside
  obtain ⟨hgood', htake', hside''⟩ := (hf a).out hu hc hgood hside'
  exact ⟨hgood', htake'.trans htake, hside''⟩

instance (d d' : Side) (p : P α) (f : α → P β) [hp : Sides d .outside base p]
    [hf : ∀ a, Sides .outside d' base (f a)] : Sides d d' base (p >>= f) :=
  hp.bind hf

instance (d d' : Side) (p : P α) (f : α → P β) [hp : Sides d .inside base p]
    [hf : ∀ a, Sides .inside d' base (f a)] : Sides d d' base (p >>= f) :=
  hp.bind hf

/-- Taking a `{` outside of all bodies opens one. -/
theorem opens_advance {s : Parser} (hs : Good false base s) (hside : sideAt base s = some .outside)
    (hk : s.current.kind = .lbrace) :
    Good false base s.advance ∧ s.advance.items.take base = s.items.take base ∧
      sideAt base s.advance = some .inside := by
  have hkeep : Keeps false base s s.advance := keeps_advance (by simp)
  obtain ⟨hgood, htake⟩ := hkeep hs
  refine ⟨hgood, htake, sideAt_advance hs.le hside (by rw [hk]; decide) ?_⟩
  intro a b c e
  simp [sideStep, hk]

theorem closes_advance {s : Parser} (hs : Good false base s) (hside : sideAt base s = some .inside)
    (hk : s.current.kind = .rbrace) :
    Good false base s.advance ∧ s.advance.items.take base = s.items.take base ∧
      sideAt base s.advance = some .outside := by
  have hkeep : Keeps false base s s.advance := keeps_advance (by simp)
  obtain ⟨hgood, htake⟩ := hkeep hs
  refine ⟨hgood, htake, sideAt_advance hs.le hside (by rw [hk]; decide) ?_⟩
  intro a b c e
  simp [sideStep, hk]

theorem semi_advance {s : Parser} (hs : Good false base s) (hside : sideAt base s = some .inside)
    (hk : s.current.kind = .semi) :
    Good false base s.advance ∧ s.advance.items.take base = s.items.take base ∧
      sideAt base s.advance = some .inside := by
  have hkeep : Keeps false base s s.advance := keeps_advance (by simp)
  obtain ⟨hgood, htake⟩ := hkeep hs
  refine ⟨hgood, htake, sideAt_advance hs.le hside (by rw [hk]; decide) ?_⟩
  intro a b c e
  simp [sideStep, hk]

theorem matchTok_run {k : TokenKind} {hk : (TokenKind.eof == k) = false} {m : Mode} {s t : Parser}
    {b : Bool} (h : (matchTok k hk).run m s = some (some b, t)) :
    (b = true ∧ s.current.kind = k ∧ t = s.advance) ∨ (b = false ∧ t = s) := by
  have hrun : (matchTok k hk).run m s =
      some (some (if s.current.kind == k then (true, s.advance) else (false, s)).1,
        (if s.current.kind == k then (true, s.advance) else (false, s)).2) := rfl
  rw [hrun] at h
  cases hkk : s.current.kind == k with
  | true =>
    simp only [hkk, if_true] at h
    cases h
    exact Or.inl ⟨rfl, by simpa using hkk, rfl⟩
  | false =>
    simp only [hkk, Bool.false_eq_true, if_false] at h
    cases h
    exact Or.inr ⟨rfl, rfl⟩

instance (priority := high) (d' : Side) (hk : (TokenKind.eof == .lbrace) = false) (p q : P α)
    [hp : Sides .inside d' base p] [hq : Sides .outside d' base q] :
    Sides .outside d' base (matchTok .lbrace hk >>= fun b => if b = true then p else q) := by
  constructor
  intro s a t h hc hs hside
  obtain ⟨b, u, hu, ht⟩ := bind_some h
  rcases matchTok_run hu with ⟨rfl, hkind, rfl⟩ | ⟨rfl, rfl⟩
  · obtain ⟨hgood, htake, hin⟩ := opens_advance hs hside hkind
    obtain ⟨hgood', htake', hside'⟩ := hp.out ht hc hgood hin
    exact ⟨hgood', htake'.trans htake, hside'⟩
  · exact hq.out ht hc hs hside

instance (message : String) (hk : (TokenKind.eof == .lbrace) = false) :
    Sides .outside .inside base (expect .lbrace message hk) := by
  unfold expect
  infer_instance

/-! ## Statements in bodies -/

/-- A full statement makes one statement node of what it reads. -/
class StmtShaped (stmt : StmtParser) : Prop where
  out : ∀ {s t}, stmt.p.run .grammar s = some (some .full, t) → t.Clean →
    (∀ e ∈ s.items, e.shaped = true) →
      (∀ e ∈ t.items, e.shaped = true) ∧
        (t.items = s.items ∨
          ∃ kind cs, isStmtKind kind = true ∧ t.items = s.items ++ [.node kind cs])

section

variable (stmt : StmtParser) [hst : StmtShaped stmt]

instance : Tame fl base stmt.p := by
  apply tame_of_all
  intro b
  constructor
  intro s res t h hc hs
  cases res with
  | empty =>
    obtain ⟨hsemi, rfl⟩ := stmt.empty_semi h
    exact keeps_advance (fun _ => by rw [hsemi]; decide) hs
  | full =>
    obtain ⟨hshaped, heq | ⟨kind, cs, -, heq⟩⟩ := hst.out h hc hs.shaped
    · exact keeps_of_items heq hs
    · refine keeps_append heq ?_ (fun e he => hshaped e (by rw [heq]; simp_all)) hs
      intro _ e he
      rw [List.mem_singleton.mp he]
      rfl

/-- A statement in a body stays in it. -/
theorem stmt_inside {s t : Parser} {res : StmtResult} (h : stmt.p.run .grammar s = some (some res, t))
    (hc : t.Clean) (hs : Good false base s) (hside : sideAt base s = some .inside) :
    Good false base t ∧ t.items.take base = s.items.take base ∧ sideAt base t = some .inside := by
  cases res with
  | empty =>
    obtain ⟨hsemi, rfl⟩ := stmt.empty_semi h
    exact semi_advance hs hside hsemi
  | full =>
    have htame : Tame false base stmt.p := inferInstance
    obtain ⟨hgood, htake⟩ := htame.out h hc hs
    refine ⟨hgood, htake, ?_⟩
    obtain ⟨-, heq | ⟨kind, cs, hkind, heq⟩⟩ := hst.out h hc hs.shaped
    · unfold sideAt at hside ⊢
      rw [heq, hside]
    · rw [sideAt_append hs.le heq, hside]
      simp [sideOf, sideStep, hkind]

theorem bodyRun_inside {n : Nat} {half : Bool} {s t : Parser}
    (h : bodyRun stmt.p .grammar n half s = some t) (hc : t.Clean) (hs : Good false base s)
    (hside : sideAt base s = some .inside) :
    Good false base t ∧ t.items.take base = s.items.take base ∧ sideAt base t = some .inside := by
  induction n generalizing half s with
  | zero => cases h
  | succ n ih =>
    unfold bodyRun at h
    split at h
    · cases h
      cases half with
      | true => exact absurd hc (not_clean_markLone s)
      | false => exact ⟨hs, rfl, hside⟩
    split at h
    · cases h
    next o u hu =>
    split at h
    · have hcr : (react .grammar half o u).2.Clean := Clean.of_follows (bodyRun_follows h) hc
      have hcu : u.Clean := Clean.of_follows (react_follows .grammar half o u) hcr
      cases o with
      | none => exact absurd hcu (not_clean_of_panic (stmt.p.failed hu))
      | some res =>
        obtain ⟨hgu, htu, hsu⟩ := stmt_inside stmt hu hcu hs hside
        have hreact : (react .grammar half (some res) u).2 = u := by
          cases res with
          | empty => rfl
          | full =>
            cases half with
            | true => exact absurd hcr (not_clean_markLone u)
            | false => rfl
        rw [hreact] at h
        obtain ⟨hgt, htt, hst'⟩ := ih h hgu hsu
        exact ⟨hgt, htt.trans htu, hst'⟩
    · cases h

theorem eachFieldRun_inside {n : Nat} {s t : Parser}
    (h : eachFieldRun stmt.p .grammar n s = some t) (hc : t.Clean) (hs : Good false base s)
    (hside : sideAt base s = some .inside) :
    Good false base t ∧ t.items.take base = s.items.take base ∧ sideAt base t = some .inside := by
  induction n generalizing s with
  | zero => cases h
  | succ n ih =>
    unfold eachFieldRun at h
    split at h
    · cases h
      exact ⟨hs, rfl, hside⟩
    split at h
    · cases h
    · next u hu =>
      cases h
      exact absurd hc (not_clean_of_panic (stmt.p.failed hu))
    · next u hu =>
      split at h
      · obtain ⟨hgu, htu, hsu⟩ :=
          stmt_inside stmt hu (Clean.of_follows (eachFieldRun_reach h) hc) hs hside
        obtain ⟨hgt, htt, hst'⟩ := ih h hgu hsu
        exact ⟨hgt, htt.trans htu, hst'⟩
      · cases h
    · next u hu =>
      dsimp only at h
      split at h
      · have hcm : (u.markLone (u.current.kind != .rbrace)).Clean :=
          Clean.of_follows (eachFieldRun_reach h) hc
        have hmark : u.markLone (u.current.kind != .rbrace) = u := by
          cases hk : u.current.kind != .rbrace with
          | true =>
            rw [hk] at hcm
            exact absurd hcm (not_clean_markLone u)
          | false => rfl
        rw [hmark] at h hcm
        obtain ⟨hgu, htu, hsu⟩ := stmt_inside stmt hu hcm hs hside
        obtain ⟨hgt, htt, hst'⟩ := ih h hgu hsu
        exact ⟨hgt, htt.trans htu, hst'⟩
      · cases h

omit hst in
/-- The closing brace of a clean body is there. -/
theorem closeBrace_run {t : Parser} {message : String} (h : (t.closeBrace message).Clean) :
    t.current.kind = .rbrace ∧ t.closeBrace message = t.advance := by
  unfold closeBrace at h ⊢
  split at h
  · next hk => exact ⟨hk, by simp [hk]⟩
  · exact absurd h (not_clean_of_panic (report_panic t message))

instance (message : String) : Sides .inside .outside base (bodyUntilBrace stmt message) := by
  constructor
  intro s a t h hc hs hside
  obtain ⟨u, hu, he⟩ := Option.map_eq_some_iff.mp h
  cases he
  obtain ⟨hgu, htu, hsu⟩ := bodyRun_inside stmt hu (clean_of_closeBrace hc) hs hside
  obtain ⟨hk, hclose⟩ := closeBrace_run hc
  obtain ⟨hgt, htt, hst'⟩ := closes_advance hgu hsu hk
  show Good false base (u.closeBrace message) ∧ _
  rw [hclose]
  exact ⟨hgt, htt.trans htu, hst'⟩

instance (message : String) : Sides .inside .outside base (eachFieldBody stmt.p message) := by
  constructor
  intro s a t h hc hs hside
  obtain ⟨u, hu, he⟩ := Option.map_eq_some_iff.mp h
  cases he
  obtain ⟨hgu, htu, hsu⟩ := eachFieldRun_inside stmt hu (clean_of_closeBrace hc) hs hside
  obtain ⟨hk, hclose⟩ := closeBrace_run hc
  obtain ⟨hgt, htt, hst'⟩ := closes_advance hgu hsu hk
  show Good false base (u.closeBrace message) ∧ _
  rw [hclose]
  exact ⟨hgt, htt.trans htu, hst'⟩

end

/-! ## The arms of a `match` -/

theorem good_here {s : Parser} (h : ∀ e ∈ s.items, e.shaped = true) : Good fl s.items.length s :=
  ⟨Nat.le_refl _, fun _ e he => by simp at he, h⟩

theorem Good.side {s : Parser} (h : Good true base s) :
    Good false base s ∧ sideAt base s = some .outside :=
  ⟨⟨h.le, nofun, h.shaped⟩, sideOf_tidy h.tidy⟩

theorem armBody_sides {block : P Unit} {stmt : StmtParser} [hb : Sides .outside .outside base block]
    [StmtShaped stmt] {s t : Parser} {b : Bool} (h : armBody block stmt.p .grammar s = some (b, t))
    (hc : t.Clean) (hs : Good false base s) (hside : sideAt base s = some .outside) :
    Good false base t ∧ t.items.take base = s.items.take base ∧ sideAt base t = some .outside := by
  unfold armBody at h
  split at h
  · obtain ⟨⟨o, u⟩, hu, he⟩ := Option.map_eq_some_iff.mp h
    cases he
    cases o with
    | none => exact absurd hc (not_clean_of_panic (block.failed hu))
    | some _ => exact hb.out hu hc hs hside
  · obtain ⟨⟨o, u⟩, hu, he⟩ := Option.map_eq_some_iff.mp h
    cases he
    have hcu : u.Clean := Clean.of_follows (armReact_follows .grammar o u) hc
    match o, hu, hc with
    | none, hu, _ => exact absurd hcu (not_clean_of_panic (stmt.p.failed hu))
    | some .full, hu, hc =>
      have hsides : Sides .outside .outside base stmt.p := inferInstance
      exact hsides.out hu hc hs hside
    | some .empty, _, hc => exact absurd hc (not_clean_markLone u)

/-- The arm's node owns the body of the arm. -/
theorem keeps_armEnd {s : Parser} (hside : sideAt base s = some .outside) :
    Keeps false base s (armEnd s base) := by
  have hwrap : Keeps false base s (s.wrap base .matchArm) :=
    keeps_wrap (Nat.le_refl _) fun _ => hside
  unfold armEnd
  dsimp only
  split
  · exact hwrap.trans (keeps_advance (by simp))
  · exact hwrap

theorem armsRun_keeps {pattern block : P Unit} {stmt : StmtParser} [hp : ∀ b, Tame true b pattern]
    [hb : ∀ b, Sides .outside .outside b block] [StmtShaped stmt] {n : Nat} {s t : Parser}
    (h : armsRun pattern block stmt.p .grammar n s = some t) (hc : t.Clean) :
    Keeps false base s t := by
  induction n generalizing s with
  | zero => cases h
  | succ n ih =>
    unfold armsRun at h
    split at h
    · cases h
      exact Keeps.refl _ _ _
    split at h
    · cases h
    · next u hu =>
      cases h
      exact absurd hc (not_clean_of_panic (pattern.failed hu))
    · next u hu =>
      have hround : ∀ {v}, armBody block stmt.p .grammar u = some (true, v) → v.Clean →
          (∀ e ∈ s.items, e.shaped = true) →
            Good false s.items.length v ∧ v.items.take s.items.length = s.items ∧
              sideAt s.items.length v = some .outside := by
        intro v hv hcv hs
        have hcu : u.Clean := Clean.of_follows (armBody_follows hv) hcv
        obtain ⟨hgu, htu⟩ := (hp s.items.length).out hu hcu (good_here hs)
        obtain ⟨hgu', hsu⟩ := hgu.side
        obtain ⟨hgv, htv, hsv⟩ := armBody_sides hv hcv hgu' hsu
        exact ⟨hgv, by rw [htv, htu, List.take_length], hsv⟩
      split at h
      · cases h
      · next v hv =>
        cases h
        unfold armBody at hv
        split at hv
        · obtain ⟨⟨o, w⟩, hw, he⟩ := Option.map_eq_some_iff.mp hv
          cases o with
          | none =>
            cases he
            exact absurd hc (not_clean_of_panic (block.failed hw))
          | some _ => cases he
        · obtain ⟨⟨o, w⟩, hw, he⟩ := Option.map_eq_some_iff.mp hv
          cases he
      · next v hv =>
        split at h
        · have hce : (armEnd v s.items.length).Clean := Clean.of_follows (armsRun_follows h) hc
          have hcv : v.Clean :=
            Clean.of_follows (armEnd_follows (Follows.refl true v) s.items.length) hce
          refine Keeps.trans (Keeps.lower ?_) (ih h)
          intro hs
          obtain ⟨hgv, htv, hsv⟩ := hround hv hcv hs.shaped
          obtain ⟨hge, hte⟩ := keeps_armEnd hsv hgv
          exact ⟨hge, by rw [hte, htv, List.take_length]⟩
        · cases h

instance (pattern block : P Unit) (stmt : StmtParser) (message : String)
    [∀ b, Tame true b pattern] [∀ b, Sides .outside .outside b block] [StmtShaped stmt] :
    Tame false base (matchArms pattern block stmt.p message) := by
  constructor
  intro s a t h hc
  obtain ⟨u, hu, he⟩ := Option.map_eq_some_iff.mp h
  cases he
  obtain ⟨hk, hclose⟩ := closeBrace_run hc
  have hkeep : Keeps false base s u := armsRun_keeps hu (clean_of_closeBrace hc)
  show Keeps false base s (u.closeBrace message)
  rw [hclose]
  exact hkeep.trans (keeps_advance (by simp))

/-! ## Forms -/

/-- `p` makes the inside of a node. If it says that the node owns a body, the body is in
order. -/
class Formed (base : Nat) (p : P SyntaxNodeKind) : Prop where
  out : ∀ {s kind t}, p.run .grammar s = some (some kind, t) → t.Clean → Good true base s →
    Good false base t ∧ t.items.take base = s.items.take base ∧
      (isBodyKind kind = true → sideAt base t = some .outside)

section

variable (p q : P SyntaxNodeKind)

instance (priority := low) [hp : Sides .outside .outside base p] : Formed base p := by
  constructor
  intro s kind t h hc hs
  obtain ⟨hgood, htake, hside⟩ := hp.out h hc hs.side.1 hs.side.2
  exact ⟨hgood, htake, fun _ => hside⟩

/-- A form whose node owns no body. -/
theorem formed_plain {p : P SyntaxNodeKind} [hp : Tame false base p] [hr : Returns p isPlainKind]
    {s t : Parser} {kind : SyntaxNodeKind} (h : p.run .grammar s = some (some kind, t)) (hc : t.Clean)
    (hs : Good false base s) :
    Good false base t ∧ t.items.take base = s.items.take base ∧
      (isBodyKind kind = true → sideAt base t = some .outside) := by
  obtain ⟨hgood, htake⟩ := hp.out h hc hs
  refine ⟨hgood, htake, fun hk => ?_⟩
  rw [isBodyKind_of_plain (hr.out h)] at hk
  cases hk

instance (priority := low) [Tame false base p] [Returns p isPlainKind] : Formed base p :=
  ⟨fun h hc hs => formed_plain h hc hs.side.1⟩

instance (c : Prop) [Decidable c] [Formed base p] [Formed base q] :
    Formed base (if c then p else q) := by
  split <;> infer_instance

instance (p : P α) (f : α → P SyntaxNodeKind) [hp : Tame true base p] [hf : ∀ a, Formed base (f a)] :
    Formed base (p >>= f) := by
  constructor
  intro s kind t h hc hs
  obtain ⟨a, u, hu, ht⟩ := bind_some h
  have hcu : u.Clean := Clean.of_follows ((f a).reach ht) hc
  obtain ⟨hgu, htu⟩ := hp.out hu hcu hs
  obtain ⟨hgt, htt, hside⟩ := (hf a).out ht hc hgu
  exact ⟨hgt, htt.trans htu, hside⟩

instance (priority := high) (f : Nat → P SyntaxNodeKind)
    [hf : ∀ k, Formed base (f (base + k))] : Formed base (checkpoint >>= f) := by
  constructor
  intro s kind t h hc hs
  obtain ⟨k, hk⟩ := Nat.exists_eq_add_of_le hs.le
  have h' : (f s.items.length).run .grammar s = some (some kind, t) := h
  rw [hk] at h'
  exact (hf k).out h' hc hs

/-- `{` that opens a body. -/
instance (priority := high) (hk : (TokenKind.eof == .lbrace) = false)
    [hp : Sides .inside .outside base p] [hq : Formed base q] :
    Formed base (matchTok .lbrace hk >>= fun b => if b = true then p else q) := by
  constructor
  intro s kind t h hc hs
  obtain ⟨b, u, hu, ht⟩ := bind_some h
  rcases matchTok_run hu with ⟨rfl, hkind, rfl⟩ | ⟨rfl, rfl⟩
  · obtain ⟨hgood, htake, hin⟩ := opens_advance hs.side.1 hs.side.2 hkind
    obtain ⟨hgood', htake', hside⟩ := hp.out ht hc hgood hin
    exact ⟨hgood', htake'.trans htake, fun _ => hside⟩
  · exact hq.out ht hc hs

/-- `{` that belongs to a node without a body. -/
instance (priority := high) (hk : (TokenKind.eof == .lbrace) = false) [Tame false base p]
    [Returns p isPlainKind] [hq : Formed base q] :
    Formed base (matchTok .lbrace hk >>= fun b => if b = true then p else q) := by
  constructor
  intro s kind t h hc hs
  obtain ⟨b, u, hu, ht⟩ := bind_some h
  rcases matchTok_run hu with ⟨rfl, -, rfl⟩ | ⟨rfl, rfl⟩
  · have hkeep : Keeps false base s s.advance := keeps_advance (by simp)
    obtain ⟨hgood, htake⟩ := hkeep hs.side.1
    have ht' : p.run .grammar s.advance = some (some kind, t) := ht
    obtain ⟨hgood', htake', hside⟩ := formed_plain ht' hc hgood
    exact ⟨hgood', htake'.trans htake, hside⟩
  · exact hq.out ht hc hs

end

/-! ## The functions of the circle -/

/-- What the functions of the circle do to the items. -/
class RecShaped (r : Rec) : Prop where
  expr : ∀ base, Tame true base r.expr
  type : ∀ base, Tame true base r.type
  unary : ∀ base, Tame true base r.unary
  binaryRhs : ∀ base k minPrec, Tame true base (r.binaryRhs (base + k) minPrec)
  stmt : StmtShaped r.stmt
  decl : ∀ base, Tame false base r.decl
  declKind : Returns r.decl isPlainKind

section

variable (r : Rec)

instance (k : TokenKind) (hk : (TokenKind.eof == k) = false) [IsFalse (barred fl k)] :
    Tame fl base (optTok k hk) := by
  unfold optTok
  infer_instance

instance (kind : SyntaxNodeKind) (message : String) [IsFalse (isBodyKind kind)] : Tame fl base (nameNode kind message) := by
  unfold nameNode
  infer_instance

instance : Tame false base parseQueryColumns := by
  unfold parseQueryColumns
  infer_instance

instance : Tame false base parseGroupForm := by
  unfold parseGroupForm
  infer_instance

instance : Tame fl base parseOptEff := by
  unfold parseOptEff
  infer_instance

instance : Tame fl base parseOptRowBind := by
  unfold parseOptRowBind
  infer_instance

instance : Tame fl base parseOptWrites := by
  unfold parseOptWrites
  infer_instance

instance : Tame fl base enumVariant := by
  unfold enumVariant
  infer_instance

instance : Tame false base parseEnumExpr := by
  unfold parseEnumExpr
  infer_instance

instance (op : TokenKind) : Tame fl base (divPolicy op) := by
  unfold divPolicy
  infer_instance

variable [h : RecShaped r]

instance : Tame fl base r.expr := tame_of_all h.expr

instance : Tame fl base r.type := tame_of_all h.type

instance : Tame fl base r.unary := tame_of_all h.unary

instance : StmtShaped r.stmt := h.stmt

instance (k minPrec : Nat) : Tame true base (r.binaryRhs (base + k) minPrec) :=
  h.binaryRhs base k minPrec

instance : Tame fl base (parseType r) := by
  unfold parseType
  infer_instance

instance : Tame fl base (paramNode r) := by
  unfold paramNode
  infer_instance

instance (isExtern : Bool) : Tame fl base (parseParamListBody r isExtern) := by
  unfold parseParamListBody
  infer_instance

instance : Tame fl base (outParamNode r) := by
  unfold outParamNode
  infer_instance

instance : Tame fl base (parseProcOutList r) := by
  unfold parseProcOutList
  infer_instance

instance (isExtern : Bool) : Tame fl base (parseFuncReturn r isExtern) := by
  unfold parseFuncReturn
  infer_instance

instance (isExtern : Bool) : Tame fl base (parseProcSig r isExtern) := by
  unfold parseProcSig
  infer_instance

instance (isExtern : Bool) : Tame fl base (parseFuncSig r isExtern) := by
  unfold parseFuncSig
  infer_instance

instance : Tame fl base (parseDim r) := by
  unfold parseDim
  infer_instance

instance (d : Dim) : Tame fl base (parseDims r d) := by
  unfold parseDims
  infer_instance

instance : Tame fl base (parseArrayType r) := by
  unfold parseArrayType
  infer_instance

instance : Tame fl base (parseNamedType r) := by
  unfold parseNamedType
  infer_instance

instance : Tame fl base (parseTypeInner r) := by
  unfold parseTypeInner
  infer_instance

instance : Tame fl base (parseTupleNameGroup r) := by
  unfold parseTupleNameGroup
  infer_instance

instance : Tame fl base (parseArchField r) := by
  unfold parseArchField
  infer_instance

instance : Tame fl base (archFields r) := by
  unfold archFields
  infer_instance

omit h in
theorem parseTypeInner_plain : Returns (parseTypeInner r) fun form => isPlainKind form.syntaxKind := by
  unfold parseTypeInner parseArrayType parseNamedType
  infer_instance

instance : Tame fl base (parseTypeForm r) := by
  have hwrap : ∀ k (form : TypeForm), isPlainKind form.syntaxKind = true →
      Tame fl base (do wrap (base + k) form.syntaxKind; return form) := by
    intro k form hform
    have hkind : IsFalse (isBodyKind form.syntaxKind) := ⟨isBodyKind_of_plain hform⟩
    infer_instance
  have hrest : ∀ k failedKind, Tame fl base (do
      let form ← orWrap (parseTypeInner r) (base + k) failedKind
      wrap (base + k) form.syntaxKind
      return form) := by
    intro k failedKind
    apply Tame.bind_of inferInstance
    intro s form t _ _ hrun _ hu hc
    exact (hwrap k form ((parseTypeInner_plain r).out (onFail_some hrun))).out hu hc
  unfold parseTypeForm
  infer_instance

instance : Tame fl base (parseBracketIndexOrSlice r) := by
  unfold parseBracketIndexOrSlice
  infer_instance

end

/-! ## Expressions -/

instance : NoBraceIn fun k => k == .plus || k == .star := ⟨by decide, by decide⟩

instance : NoBraceIn fun k => k == .bang || k == .question := ⟨by decide, by decide⟩

instance : NoBraceIn fun k => k == .move || k == .copy := ⟨by decide, by decide⟩

instance : NoBraceIn fun k => k == .minus || k == .bang := ⟨by decide, by decide⟩

instance : NoBraceIn fun k => k == .number || k == .string || k == .charLit :=
  ⟨by decide, by decide⟩

instance : NoBraceIn isAssignOp := ⟨by decide, by decide⟩

instance (minPrec : Nat) : NoBraceIn (bindsAt minPrec) := by
  constructor <;> simp [bindsAt, binopPrec]

section

variable (r : Rec)

instance : Returns parseGroupForm isPlainKind := by
  unfold parseGroupForm
  infer_instance

instance : Returns (parseArrayLit r) isPlainKind := by
  unfold parseArrayLit
  infer_instance

instance : Returns (parseArchExpr r) isPlainKind := by
  unfold parseArchExpr
  infer_instance

instance : Returns parseEnumExpr isPlainKind := by
  unfold parseEnumExpr
  infer_instance

instance : Returns (parseSumExpr r) isPlainKind := by
  unfold parseSumExpr
  infer_instance

instance : Returns (parseEntityExpr r) isPlainKind := by
  unfold parseEntityExpr
  infer_instance

instance : Returns (parseArgs r) isPlainKind := by
  unfold parseArgs
  infer_instance

instance : Returns (parseIndex r) isPlainKind := by
  unfold parseIndex
  infer_instance

instance : Returns (parseFieldChain r) isPlainKind := by
  unfold parseFieldChain
  infer_instance

instance (isCollective : Bool) : Returns (parseCall r isCollective) isPlainKind := by
  unfold parseCall
  infer_instance

instance (cp : Nat) (isTable isSum isCollective : Bool) : Returns (parseNamePrimary r cp isTable isSum isCollective) isPlainKind := by
  unfold parseNamePrimary
  infer_instance

instance (kind : SyntaxNodeKind) : Tame fl base (parseOptPolicy kind) := by
  unfold parseOptPolicy
  infer_instance

variable [h : RecShaped r]

omit h in
/-- The braces of a query literal end up inside its node. -/
instance (message : String) : Tame fl base (parseQueryThing message) := by
  apply tame_of_all
  intro b
  constructor
  intro s a t h hc
  obtain ⟨cp, s', hcp, h⟩ := bind_some h
  cases hcp
  obtain ⟨isQuery, u, hu, h⟩ := bind_some h
  cases isQuery with
  | true =>
    obtain ⟨_, v, hv, hw⟩ := bind_some h
    cases hw
    have hcv : v.Clean := Clean.of_follows (reach_wrap v _ _) hc
    have hcu : u.Clean := Clean.of_follows (parseQueryColumns.reach hv) hcv
    have htok : Tame false s.items.length (matchTok .query) := inferInstance
    have hcols : Tame false s.items.length parseQueryColumns := inferInstance
    refine keeps_node fun hs => ?_
    obtain ⟨hgood, htake⟩ := ((htok.out hu hcu).trans (hcols.out hv hcv)) hs
    exact ⟨hgood, htake, nofun⟩
  | false =>
    obtain ⟨_, v, hv, hw⟩ := bind_some h
    cases hw
    have hcv : v.Clean := Clean.of_follows (reach_wrap v _ _) hc
    have hcu : u.Clean := Clean.of_follows ((expect .ident message).reach hv) hcv
    have htok : Tame false s.items.length (matchTok .query) := inferInstance
    have hname : Tame false s.items.length (expect .ident message) := inferInstance
    refine keeps_node fun hs => ?_
    obtain ⟨hgood, htake⟩ := ((htok.out hu hcu).trans (hname.out hv hcv)) hs
    exact ⟨hgood, htake, nofun⟩

instance : Sides .outside .outside base (parseBlockBody r) := by
  unfold parseBlockBody
  infer_instance

instance (isExtern : Bool) : Sides .outside .outside base (parseProcForm r isExtern) := by
  unfold parseProcForm
  infer_instance

instance : Sides .outside .outside base (parseFuncForm r) := by
  unfold parseFuncForm
  infer_instance

instance : Sides .outside .outside base (parsePolicyForm r) := by
  unfold parsePolicyForm
  infer_instance

instance : Sides .outside .outside base (parseMapExpr r) := by
  unfold parseMapExpr
  infer_instance

instance : Sides .outside .outside base (parseSystemExpr r) := by
  unfold parseSystemExpr
  infer_instance

instance : Tame false base (parseArrayLit r) := by
  unfold parseArrayLit
  infer_instance

instance : Tame false base (parseArchExpr r) := by
  unfold parseArchExpr
  infer_instance

instance : Tame fl base (sumVariant r) := by
  unfold sumVariant
  infer_instance

instance : Tame false base (parseSumExpr r) := by
  unfold parseSumExpr
  infer_instance

instance (trailing : Bool) : Tame fl base (countExprs r trailing) := by
  unfold countExprs
  infer_instance

instance : Tame fl base (entityField r) := by
  unfold entityField
  infer_instance

instance : Tame false base (parseEntityExpr r) := by
  unfold parseEntityExpr
  infer_instance

instance : Tame fl base (parseArgs r) := by
  unfold parseArgs
  infer_instance

instance : Tame fl base (parseIndex r) := by
  unfold parseIndex
  infer_instance

instance : Tame fl base (parseFieldChain r) := by
  unfold parseFieldChain
  infer_instance

instance (isCollective : Bool) : Tame fl base (parseCall r isCollective) := by
  unfold parseCall
  infer_instance

instance (k : Nat) (isTable isSum isCollective : Bool) :
    Tame false base (parseNamePrimary r (base + k) isTable isSum isCollective) := by
  unfold parseNamePrimary
  infer_instance

instance (k : Nat) : Tame false base (parseParen r (base + k)) := by
  unfold parseParen
  infer_instance

instance : Formed base (parsePrimaryExpr r) := by
  unfold parsePrimaryExpr
  infer_instance

/-- The kinds a further postfix group can follow. -/
def chainsOn (kind : SyntaxNodeKind) : Bool := takesPolicy kind || kind == .fieldExpr

omit h in
theorem isPlainKind_of_chains {kind : SyntaxNodeKind} (hk : chainsOn kind = true) :
    isPlainKind kind = true := by
  cases kind <;> first | rfl | cases hk

omit h in
theorem postfixGroup_idle {cp : Nat} {kind : SyntaxNodeKind} (hk : chainsOn kind = false) {m : Mode}
    {s : Parser} : (postfixGroup r cp kind).run m s = some (some (false, kind), s) := by
  have hchains : ((takesPolicy kind || kind == .fieldExpr) &&
      (s.current.kind == .dot || s.current.kind == .lbracket)) = false := by
    have : (takesPolicy kind || kind == .fieldExpr) = false := hk
    simp [this]
  unfold postfixGroup
  rw [bind_run]
  simp only [ask, lift, hchains]
  rfl

instance (kind : SyntaxNodeKind) : Tame false base (postfixGroup r base kind) := by
  cases hk : chainsOn kind with
  | false =>
    constructor
    intro s a t h _
    rw [postfixGroup_idle r hk] at h
    cases h
    exact Keeps.refl _ _ _
  | true =>
    have hkind : IsFalse (isBodyKind kind) := ⟨isBodyKind_of_plain (isPlainKind_of_chains hk)⟩
    have hwrap : Tame false base (wrap base kind) :=
      inferInstanceAs (Tame false base (wrap (base + 0) kind))
    unfold postfixGroup
    infer_instance

omit h in
theorem postfixGroup_plain {cp : Nat} {kind : SyntaxNodeKind} (hk : isPlainKind kind = true) :
    Returns (postfixGroup r cp kind) fun res => isPlainKind res.2 := by
  have hkind : IsTrue (isPlainKind kind) := ⟨hk⟩
  have hindex : Returns (do
      let kind' ← parseIndex r
      parseOptPolicy kind'
      return (true, kind')) fun res : Bool × SyntaxNodeKind => isPlainKind res.2 := by
    constructor
    intro m s res t hrun
    obtain ⟨kind', u, hu, hrun⟩ := bind_some hrun
    obtain ⟨_, v, _, hrun⟩ := bind_some hrun
    cases hrun
    have hreturns : Returns (parseIndex r) isPlainKind := inferInstance
    exact hreturns.out hu
  unfold postfixGroup
  infer_instance

/-- The postfix groups of a primary: a body stays as it is, since nothing can follow it. -/
theorem postfixLoop_formed {cp : Nat} {kind kind' : SyntaxNodeKind} {s t : Parser}
    (h : (loopOn kind (postfixGroup r cp)).run .grammar s = some (some kind', t)) (hc : t.Clean)
    (hs : Good false cp s) (hside : isBodyKind kind = true → sideAt cp s = some .outside) :
    Good false cp t ∧ t.items.take cp = s.items.take cp ∧
      (isBodyKind kind' = true → sideAt cp t = some .outside) := by
  cases hplain : isPlainKind kind with
  | true =>
    have htame : Tame false cp (loopOn kind (postfixGroup r cp)) := inferInstance
    obtain ⟨hgood, htake⟩ := htame.out h hc hs
    have hkind' : isPlainKind kind' = true :=
      loopRun_result (g := isPlainKind) (fun a ha => postfixGroup_plain r ha) hplain h
    exact ⟨hgood, htake, fun hb => by rw [isBodyKind_of_plain hkind'] at hb; cases hb⟩
  | false =>
    have hidle : chainsOn kind = false := by
      cases hk : chainsOn kind with
      | false => rfl
      | true => rw [isPlainKind_of_chains hk] at hplain; cases hplain
    have hrun : (loopOn kind (postfixGroup r cp)).run .grammar s = some (some kind, s) := by
      show loopRun (fun a => (postfixGroup r cp a).run .grammar) (s.unread + 1) kind s = _
      unfold loopRun
      rw [postfixGroup_idle r hidle]
    rw [hrun] at h
    cases h
    exact ⟨hs, rfl, hside⟩

theorem singleNode_tidy {s : Parser} {cp : Nat} (h : s.singleNode cp = true) :
    Tidy true (s.items.drop cp) := by
  unfold singleNode at h
  split at h
  · next kind cs heq =>
    intro _ e he
    rw [heq, List.mem_singleton] at he
    rw [he]
    rfl
  · cases h

instance : Tame fl base (parsePostfix r) := by
  apply tame_of_all
  intro b
  constructor
  intro s a t h hc
  obtain ⟨cp, s', hcp, h⟩ := bind_some h
  cases hcp
  obtain ⟨kind, u, hu, h⟩ := bind_some h
  obtain ⟨_, v, hv, h⟩ := bind_some h
  obtain ⟨kind', w, hw, h⟩ := bind_some h
  obtain ⟨single, w', hask, h⟩ := bind_some h
  cases hask
  have hcw : w.Clean := by
    cases hsingle : w.singleNode s.items.length with
    | true =>
      simp only [hsingle, if_true] at h
      cases h
      exact hc
    | false =>
      simp only [hsingle, Bool.false_eq_true, if_false] at h
      exact Clean.of_follows ((wrap s.items.length kind').reach h) hc
  have hcv : v.Clean := Clean.of_follows ((loopOn kind (postfixGroup r s.items.length)).reach hw) hcw
  have hcu : u.Clean := Clean.of_follows ((parseOptPolicy kind).reach hv) hcv
  have hprimary : Formed s.items.length (parsePrimaryExpr r) := inferInstance
  have hpolicy : Tame false s.items.length (parseOptPolicy kind) := inferInstance
  have hpolicy' : Sides .outside .outside s.items.length (parseOptPolicy kind) := inferInstance
  have hinner : (∀ e ∈ s.items, e.shaped = true) → Good false s.items.length w ∧
      w.items.take s.items.length = s.items.take s.items.length ∧
        (isBodyKind kind' = true → sideAt s.items.length w = some .outside) := by
    intro hshaped
    obtain ⟨hgu, htu, hsu⟩ := hprimary.out hu hcu (good_here hshaped)
    obtain ⟨hgv, htv⟩ := hpolicy.out hv hcv hgu
    have hsv : isBodyKind kind = true → sideAt s.items.length v = some .outside :=
      fun hb => (hpolicy'.out hv hcv hgu (hsu hb)).2.2
    obtain ⟨hgw, htw, hsw⟩ := postfixLoop_formed r hw hcw hgv hsv
    exact ⟨hgw, htw.trans (htv.trans htu), hsw⟩
  cases hsingle : w.singleNode s.items.length with
  | true =>
    simp only [hsingle, if_true] at h
    cases h
    intro hs
    obtain ⟨hgw, htw, -⟩ := hinner hs.shaped
    have hitems : w.items = s.items ++ w.items.drop s.items.length := by
      rw [List.take_length] at htw
      rw [← htw, List.length_take, Nat.min_eq_left hgw.le, List.take_append_drop]
    exact keeps_append hitems (singleNode_tidy hsingle)
      (fun e he => hgw.shaped e (List.mem_of_mem_drop he)) hs
  | false =>
    simp only [hsingle, Bool.false_eq_true, if_false] at h
    cases h
    exact keeps_node fun hs => hinner hs.shaped

instance : Tame fl base (parseUnaryExpr r) := by
  unfold parseUnaryExpr
  infer_instance

instance (k minPrec : Nat) : Tame true base (tighterRhs r (base + k) minPrec) := by
  unfold tighterRhs
  infer_instance

instance (k minPrec : Nat) : Tame true base (parseBinaryRhs r (base + k) minPrec) := by
  unfold parseBinaryRhs binaryStep
  infer_instance

instance : Tame fl base (parseExpression r) := by
  apply tame_of_all
  intro b
  unfold parseExpression
  infer_instance

end

/-! ## Statements -/

section

variable (r : Rec)

instance : Returns (parseBindingTail r) isStmtKind := by
  unfold parseBindingTail
  infer_instance

instance : Returns (parseBindingTail r) isPlainKind := by
  unfold parseBindingTail
  infer_instance

instance (cp : Nat) : Returns (simpleTail r cp) isStmtKind := by
  unfold simpleTail
  infer_instance

instance (cp : Nat) : Returns (simpleTail r cp) isPlainKind := by
  unfold simpleTail
  infer_instance

instance : Returns (parseSimpleStatement r) isPlainKind := by
  unfold parseSimpleStatement
  infer_instance

instance : Returns (parseSimpleStatement r) isStmtKind := by
  unfold parseSimpleStatement
  infer_instance

instance : Returns (statementForm r) isStmtKind := by
  have hsimple : Returns (do
      let kind ← parseSimpleStatement r
      closing .semi "Expected ';' after statement"
      return kind) isStmtKind := by
    constructor
    intro m s kind t hrun
    obtain ⟨kind', u, hu, hrun⟩ := bind_some hrun
    obtain ⟨_, v, _, hrun⟩ := bind_some hrun
    cases hrun
    have hreturns : Returns (parseSimpleStatement r) isStmtKind := inferInstance
    exact hreturns.out hu
  unfold statementForm jumpStmt eachFieldStmt returnStmt matchStmt parenBindStmt ifStmt forStmt
  infer_instance

instance : Returns (matchStmt r) isPlainKind := by
  unfold matchStmt
  infer_instance

instance : Tame fl base armPattern := by
  unfold armPattern
  infer_instance

instance (kind : SyntaxNodeKind) (message : String) : Tame fl base (jumpStmt kind message) := by
  unfold jumpStmt
  infer_instance

variable [h : RecShaped r]

instance : Tame fl base (bindingValue r) := by
  unfold bindingValue
  infer_instance

instance : Tame fl base (parseBindingTail r) := by
  unfold parseBindingTail
  infer_instance

instance : Tame fl base (outArg r) := by
  unfold outArg
  infer_instance

instance (cp : Nat) : Tame fl base (simpleTail r cp) := by
  unfold simpleTail
  infer_instance

instance : Tame fl base (parseSimpleStatement r) := by
  unfold parseSimpleStatement
  infer_instance

instance : Sides .outside .outside base (eachFieldStmt r) := by
  unfold eachFieldStmt
  infer_instance

instance : Tame fl base (returnStmt r) := by
  unfold returnStmt
  infer_instance

instance : Tame false base (matchStmt r) := by
  unfold matchStmt
  infer_instance

instance (n : Nat) : Tame fl base (bindTarget r n) := by
  unfold bindTarget
  infer_instance

instance : Tame fl base (parenBindStmt r) := by
  unfold parenBindStmt
  infer_instance

instance (message : String) : Sides .outside .outside base (branch r message) := by
  unfold branch
  infer_instance

instance : Sides .outside .outside base (ifStmt r) := by
  unfold ifStmt
  infer_instance

instance : Tame fl base (forPart r) := by
  have hwrap : ∀ k, Tame fl base (do
      let kind ← parseSimpleStatement r
      wrap (base + k) kind) := by
    intro k
    apply Tame.bind_of inferInstance
    intro s kind t _ _ hrun _ hu hc
    have hreturns : Returns (parseSimpleStatement r) isPlainKind := inferInstance
    have hkind : IsFalse (isBodyKind kind) := ⟨isBodyKind_of_plain (hreturns.out hrun)⟩
    have htame : Tame fl base (wrap (base + k) kind) := inferInstance
    exact htame.out hu hc
  unfold forPart
  infer_instance

instance : Sides .outside .inside base (forHeader r) := by
  unfold forHeader
  infer_instance

instance : Sides .outside .outside base (forStmt r) := by
  unfold forStmt
  infer_instance

instance : Formed base (statementForm r) := by
  unfold statementForm
  infer_instance

omit h in
/-- `parse_statement` makes one node of a form. -/
instance (form : P SyntaxNodeKind) [hf : ∀ b, Formed b form] [hr : Returns form isStmtKind] :
    StmtShaped (statement form) := by
  constructor
  intro s t hrun hc hs
  have hrun' : statementRun form .grammar s = some (some .full, t) := hrun
  unfold statementRun at hrun'
  split at hrun'
  · cases hrun'
  split at hrun'
  · cases hrun'
  split at hrun'
  · cases hrun'
  · cases hrun'
  · next kind u hu =>
    cases hrun'
    have hcu : u.Clean := Clean.of_follows ((reach_leaveStmt u).trans (reach_wrap _ _ _)) hc
    have hgood : Good true s.items.length s.enterStmt := good_here (s := s.enterStmt) hs
    obtain ⟨hgu, htu, hsu⟩ := (hf s.items.length).out hu hcu hgood
    have hgu' : Good false s.items.length u.leaveStmt := ⟨hgu.le, hgu.tidy, hgu.shaped⟩
    have htake : u.items.take s.items.length = s.items := by
      rw [htu]
      exact List.take_length
    have hwrap : Keeps false s.items.length u.leaveStmt (u.leaveStmt.wrap s.items.length kind) :=
      keeps_wrap (Nat.le_refl _) hsu
    refine ⟨(hwrap hgu').1.shaped, ?_⟩
    have hitems : u.leaveStmt.items = u.items := rfl
    unfold Parser.wrap
    rw [hitems]
    split
    · next hle => exact Or.inl (by rw [hitems, ← htake, List.take_of_length_le hle])
    · exact Or.inr ⟨kind, u.items.drop s.items.length, hr.out hu, by rw [htake]⟩

end

/-! ## Declarations -/

section

instance : Tame false base requireDeclTerminator := by
  unfold requireDeclTerminator
  infer_instance

instance : Tame false base parseLinkRegion := by
  unfold parseLinkRegion
  infer_instance

instance : Tame false base parseUseDecl := by
  unfold parseUseDecl
  infer_instance

instance : Tame false base parseDefaultDecorator := by
  unfold parseDefaultDecorator
  infer_instance

instance : Tame false base parseImplementsDecorator := by
  unfold parseImplementsDecorator
  infer_instance

instance (k : TokenKind) (m1 m2 m3 : String) (hk : (TokenKind.eof == k) = false)
    [IsFalse (barred false k)] : Tame false base (decoratorArg k m1 m2 m3 hk) := by
  unfold decoratorArg
  infer_instance

instance : Tame false base parseDecorator := by
  unfold parseDecorator
  infer_instance

instance : Tame false base parseDecorators := by
  unfold parseDecorators
  infer_instance

instance : Returns parseLinkRegion isPlainKind := by
  unfold parseLinkRegion
  infer_instance

instance : Returns parseUseDecl isPlainKind := by
  unfold parseUseDecl
  infer_instance

/-- A declaration kind that owns no body, or none. -/
@[reducible]
def isPlainOption : Option SyntaxNodeKind → Bool
  | none => true
  | some kind => isPlainKind kind

theorem Returns.bound {p : P α} {f : α → P β} (gp : α → Bool) {g : β → Bool} (hp : Returns p gp)
    (hf : ∀ a, gp a = true → Returns (f a) g) : Returns (p >>= f) g := by
  constructor
  intro m s b t h
  obtain ⟨a, u, hu, ht⟩ := bind_some h
  exact (hf a (hp.out hu)).out ht

instance : Returns parseDecorator isPlainOption := by
  unfold parseDecorator
  infer_instance

instance : Returns parseDecorators isPlainOption := by
  constructor
  intro m s o t h
  refine loopRun_result (g := isPlainOption) ?_ rfl h
  intro a _
  have hsome : Returns (do
      let directive ← parseDecorator
      return (directive.isNone, directive)) fun res : Bool × Option SyntaxNodeKind =>
        isPlainOption res.2 := by
    apply Returns.bound isPlainOption inferInstance
    intro directive hd
    have : IsTrue (isPlainOption directive) := ⟨hd⟩
    infer_instance
  infer_instance

theorem returns_recover {p : P SyntaxNodeKind} [hp : Returns p isPlainKind] :
    Returns (recover p) isPlainOption := by
  constructor
  intro m s o t h
  simp only [recover] at h
  split at h
  · cases h
  · cases h
    rfl
  · next kind u hu =>
    cases h
    exact hp.out hu

variable (r : Rec)

instance : Returns (parsePoolDecl r) isPlainKind := by
  unfold parsePoolDecl
  infer_instance

instance : Returns (parseBindingDecl r) isPlainKind := by
  unfold parseBindingDecl
  infer_instance

instance (isForeign : Bool) : Returns (parseRegion r isForeign) isPlainKind := by
  unfold parseRegion
  infer_instance

instance : Returns (parseRunRegion r) isPlainKind := by
  unfold parseRunRegion
  infer_instance

variable [h : RecShaped r]

instance : Tame false base r.decl := h.decl base

instance : Returns r.decl isPlainKind := h.declKind

instance (k : Nat) : Tame false base (poolShape r (base + k)) := by
  unfold poolShape
  infer_instance

instance : Tame false base (poolInit r) := by
  unfold poolInit
  infer_instance

instance : Tame false base (parsePoolDecl r) := by
  unfold parsePoolDecl
  infer_instance

instance : Tame false base (parseBindingDecl r) := by
  unfold parseBindingDecl
  infer_instance

instance : Tame false base (parseStaticDecl r) := by
  unfold parseStaticDecl
  infer_instance

omit h in
/-- The node of a declaration owns no body. -/
instance (decl : P SyntaxNodeKind) [hd : Tame false base decl] [hr : Returns decl isPlainKind] :
    Tame false base (declNode decl) := by
  have hrest : ∀ k, Tame false base (do
      let kind ← recover decl
      wrap (base + k) (kind.getD .error)) := by
    intro k
    apply Tame.bind_of inferInstance
    intro s kind t _ u hrun hct hu hc
    have hplain : isPlainKind (kind.getD .error) = true := by
      cases kind with
      | none => rfl
      | some kind => exact (returns_recover (p := decl)).out hrun
    have hkind : IsFalse (isBodyKind (kind.getD .error)) := ⟨isBodyKind_of_plain hplain⟩
    have htame : Tame false base (wrap (base + k) (kind.getD .error)) := inferInstance
    exact htame.out hu hc
  unfold declNode
  infer_instance

instance (isForeign : Bool) : Tame false base (parseRegion r isForeign) := by
  unfold parseRegion
  infer_instance

instance : Tame false base (parseRunRegion r) := by
  unfold parseRunRegion
  infer_instance

omit h in
instance : Returns (parseStaticDecl r) isPlainOption := by
  have hmap : ∀ p : P SyntaxNodeKind, Returns p isPlainKind → Returns (some <$> p) isPlainOption := by
    intro p hp
    apply Returns.bound isPlainKind hp
    intro kind hk
    have : IsTrue (isPlainOption (some kind)) := ⟨hk⟩
    exact inferInstanceAs (Returns (pure (some kind)) isPlainOption)
  have hpool := hmap (parsePoolDecl r) inferInstance
  have hbind := hmap (parseBindingDecl r) inferInstance
  unfold parseStaticDecl
  infer_instance

omit h in
instance : Returns (parseDeclForm r) isPlainKind := by
  have hlast : Returns (do
      match ← orReport (parseStaticDecl r) "Expected declaration" with
      | some kind => return kind
      | none => fail "Expected declaration") isPlainKind := by
    apply Returns.bound isPlainOption (inferInstanceAs (Returns (onFail _ _ _ _) _))
    intro o ho
    cases o with
    | some kind =>
      have : IsTrue (isPlainKind kind) := ⟨ho⟩
      infer_instance
    | none => infer_instance
  unfold parseDeclForm
  infer_instance

instance : Tame false base (parseDeclForm r) := by
  have hlast : ∀ o : Option SyntaxNodeKind, Tame false base (match o with
      | some kind => pure kind
      | none => fail "Expected declaration") := by
    intro o
    cases o <;> infer_instance
  unfold parseDeclForm
  infer_instance

omit h in
theorem parseDecl_plain : Returns (parseDecl r) isPlainKind := by
  apply Returns.bound isPlainOption inferInstance
  intro o ho
  cases o with
  | some kind =>
    have : IsTrue (isPlainKind kind) := ⟨ho⟩
    exact inferInstanceAs (Returns (pure kind) isPlainKind)
  | none => exact inferInstanceAs (Returns (parseDeclForm r) isPlainKind)

theorem parseDecl_tame : Tame false base (parseDecl r) := by
  have hrest : ∀ o : Option SyntaxNodeKind, Tame false base (match o with
      | some kind => pure kind
      | none => parseDeclForm r) := by
    intro o
    cases o <;> infer_instance
  unfold parseDecl
  infer_instance

end

/-! ## The circle -/

instance recShaped_knot (n : Nat) : RecShaped (knot n) := by
  induction n with
  | zero => exact ⟨fun _ => ⟨nofun⟩, fun _ => ⟨nofun⟩, fun _ => ⟨nofun⟩, fun _ _ _ => ⟨nofun⟩, ⟨nofun⟩,
      fun _ => ⟨nofun⟩, ⟨nofun⟩⟩
  | succ n ih =>
    exact
      { expr := fun base => inferInstanceAs (Tame true base (parseExpression (knot n)))
        type := fun base => inferInstanceAs (Tame true base (parseTypeForm (knot n)))
        unary := fun base => inferInstanceAs (Tame true base (parseUnaryExpr (knot n)))
        binaryRhs := fun base k minPrec =>
          inferInstanceAs (Tame true base (parseBinaryRhs (knot n) (base + k) minPrec))
        stmt := inferInstanceAs (StmtShaped (statement (statementForm (knot n))))
        decl := fun _ => parseDecl_tame (knot n)
        declKind := parseDecl_plain (knot n) }

end Arche.Syntax
