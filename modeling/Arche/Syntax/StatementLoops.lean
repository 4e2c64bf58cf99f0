import Arche.Syntax.ParserMonad

/-!
# Statements and the loops over them

`parse_statement` with its recursion limit and its clean-up, and the three kinds
of loops that call it: the bodies in braces, the arms of a `match`, the body of
an `#each_field`. `parse_statement` returns `0` for the empty statement `;`, and
the loops of the code take that for a failure.

In the grammar's reading `;` is a statement without a node. The code agrees on
it as long as it comes in pairs: `synchronize` then consumes just the second
one. `loneEmpty` marks the others.
-/

namespace Arche.Syntax

open Arche.Syntax.Parser MoveLemmas

/-- A statement with a node, or the empty statement. -/
inductive StmtResult where
  | full
  | empty
  deriving DecidableEq, Repr

/-- A statement parser that says `empty` exactly for a consumed `;`. -/
structure StmtParser where
  p : P StmtResult
  empty_semi : ∀ {m s t}, p.run m s = some (some .empty, t) →
    s.current.kind = .semi ∧ t = s.advance

namespace Parser

def maxRecursionDepth : Int := 1000

def withDepth (s : Parser) (d : Int) : Parser := { s with recursionDepth := d }

def enterStmt (s : Parser) : Parser := s.withDepth (s.recursionDepth + 1)

def leaveStmt (s : Parser) : Parser := s.withDepth (s.recursionDepth - 1)

def markLone (s : Parser) (b : Bool) : Parser := if b then { s with loneEmpty := true } else s

/-- `if (!match(TOK_RBRACE)) error(message);`. -/
def closeBrace (s : Parser) (message : String) : Parser :=
  if s.current.kind = .rbrace then s.advance else s.report message

end Parser

namespace MoveLemmas

theorem reach_enterStmt (s : Parser) : Reach s s.enterStmt :=
  reach_of_same rfl rfl rfl rfl (fun h => h) rfl

theorem reach_leaveStmt (s : Parser) : Reach s s.leaveStmt :=
  reach_of_same rfl rfl rfl rfl (fun h => h) rfl

theorem follows_markLone {b : Bool} {s t : Parser} (h : Follows b s t) (lone : Bool) :
    Follows b s (t.markLone lone) := by
  unfold markLone
  split
  · exact follows_of_same h rfl rfl rfl rfl (fun _ => rfl) rfl
  · exact h

theorem not_clean_markLone (s : Parser) : ¬ (s.markLone true).Clean := by
  intro h
  exact absurd h.2 (by simp [markLone])

/-- A loop that stopped at `}` or at the end, and its closing brace. -/
theorem reach_closeBrace {b : Bool} {s t : Parser} (h : Follows b s t) (message : String) :
    Reach s (t.closeBrace message) := by
  unfold closeBrace
  split
  · next hk =>
    have hne : t.current.kind ≠ .eof := by rw [hk]; decide
    exact (h.reach hne).trans (reach_advance hne)
  · exact reach_then_report h message

theorem clean_of_closeBrace {t : Parser} {message : String} (h : (t.closeBrace message).Clean) :
    t.Clean :=
  Clean.of_follows (reach_closeBrace (Follows.refl false t) message) h

theorem skipComments_withDepth (n : Nat) (s : Parser) (d : Int) :
    (s.withDepth d).skipComments n = (s.skipComments n).withDepth d := by
  induction n generalizing s with
  | zero =>
    unfold skipComments
    by_cases hc : s.current.kind = .comment
    · simp only [show (s.withDepth d).current.kind = .comment from hc, hc, if_true]
      rfl
    · simp only [show ¬ (s.withDepth d).current.kind = .comment from hc, hc, if_false]
  | succ n ih =>
    unfold skipComments
    by_cases hc : s.current.kind = .comment
    · simp only [show (s.withDepth d).current.kind = .comment from hc, hc, if_true]
      exact ih (s.emit s.current).next
    · simp only [show ¬ (s.withDepth d).current.kind = .comment from hc, hc, if_false]

theorem flagError_withDepth (s : Parser) (d : Int) :
    (s.withDepth d).flagError = s.flagError.withDepth d := by
  unfold flagError
  by_cases hc : s.current.kind = .error
  · simp only [show (s.withDepth d).current.kind = .error from hc, hc, if_true]
    rfl
  · simp only [show ¬ (s.withDepth d).current.kind = .error from hc, hc, if_false]

theorem take_withDepth (s : Parser) (d : Int) : (s.withDepth d).take = s.take.withDepth d := by
  unfold take
  by_cases hc : s.current.kind ≠ .eof ∧ s.current.kind ≠ .error
  · rw [if_pos hc, if_pos (show (s.withDepth d).current.kind ≠ .eof ∧
      (s.withDepth d).current.kind ≠ .error from hc)]
    rfl
  · rw [if_neg hc, if_neg (show ¬ ((s.withDepth d).current.kind ≠ .eof ∧
      (s.withDepth d).current.kind ≠ .error) from hc)]
    rfl

/-- The recursion counter plays no part in `advance`. -/
theorem advance_withDepth (s : Parser) (d : Int) :
    (s.withDepth d).advance = s.advance.withDepth d := by
  unfold advance
  have hnext : (s.take.withDepth d).next = s.take.next.withDepth d := rfl
  rw [take_withDepth, hnext, skipComments_withDepth, flagError_withDepth]

theorem advance_enter_leave (s : Parser) : s.enterStmt.advance.leaveStmt = s.advance := by
  have hsame := (AccountLemmas.advance_sameFlags s).recursionDepth
  unfold enterStmt leaveStmt
  rw [advance_withDepth]
  have hback : (s.advance.withDepth (s.recursionDepth + 1)).withDepth s.recursionDepth =
      s.advance.withDepth s.recursionDepth := rfl
  have hdepth : (s.advance.withDepth (s.recursionDepth + 1)).recursionDepth - 1 =
      s.recursionDepth := by
    have : (s.advance.withDepth (s.recursionDepth + 1)).recursionDepth = s.recursionDepth + 1 := rfl
    omega
  rw [hdepth, hback, ← hsame]
  rfl

end MoveLemmas

/-! ## One statement -/

/-- `parse_statement` around the statement forms other than `;`. A failed form leaves the
recursion counter and no node. The recursion limit is reported before the counter is
raised, and the clean-up lowers it all the same. -/
def statementRun (form : P SyntaxNodeKind) (m : Mode) (s : Parser) :
    Option (Option StmtResult × Parser) :=
  if s.recursionDepth > maxRecursionDepth then
    some (none, (s.report "Recursion limit exceeded").leaveStmt)
  else if s.current.kind = .semi then some (some .empty, s.enterStmt.advance.leaveStmt)
  else
    match form.run m s.enterStmt with
    | none => none
    | some (none, t) => some (none, t.leaveStmt)
    | some (some kind, t) => some (some .full, t.leaveStmt.wrap s.items.length kind)

def statement (form : P SyntaxNodeKind) : StmtParser where
  p :=
    { run := statementRun form
      reach := by
        intro m s o t ht
        unfold statementRun at ht
        split at ht
        · cases ht
          exact (reach_report s _).trans (reach_leaveStmt _)
        split at ht
        · next hsemi =>
          cases ht
          have hne : s.enterStmt.current.kind ≠ .eof := by
            have : s.enterStmt.current.kind = .semi := hsemi
            rw [this]
            decide
          exact (reach_enterStmt s).trans ((reach_advance hne).trans (reach_leaveStmt _))
        split at ht
        · cases ht
        · next u hu =>
          cases ht
          exact (reach_enterStmt s).trans ((form.reach hu).trans (reach_leaveStmt _))
        · next kind u hu =>
          cases ht
          exact (reach_enterStmt s).trans
            ((form.reach hu).trans ((reach_leaveStmt _).trans (reach_wrap _ _ _)))
      failed := by
        intro m s t ht
        unfold statementRun at ht
        split at ht
        · cases ht
          exact report_panic s _
        split at ht
        · cases ht
        split at ht
        · cases ht
        · next u hu =>
          cases ht
          have : u.panicMode = true := form.failed hu
          exact this
        · cases ht
      reads := by
        intro s o t ht hc
        unfold statementRun at ht ⊢
        split at ht
        · next h =>
          simp only [h, if_true]
          exact ht
        · next h =>
          simp only [h, if_false]
          split at ht
          · next h' =>
            simp only [h', if_true]
            exact ht
          · next h' =>
            simp only [h', if_false]
            split at ht
            · cases ht
            · next u hu =>
              cases ht
              rw [form.reads hu (Clean.of_follows (reach_leaveStmt u) hc)]
            · next kind u hu =>
              cases ht
              have hcu : u.Clean :=
                Clean.of_follows ((reach_leaveStmt u).trans (reach_wrap _ _ _)) hc
              rw [form.reads hu hcu] }
  empty_semi := by
    intro m s t ht
    have ht' : statementRun form m s = some (some .empty, t) := ht
    unfold statementRun at ht'
    split at ht'
    · cases ht'
    split at ht'
    · next hsemi =>
      cases ht'
      exact ⟨hsemi, advance_enter_leave s⟩
    split at ht' <;> cases ht'

/-! ## Bodies in braces -/

/-- How a body loop answers to a statement. `half` says that an empty statement without a
partner stands right before. -/
def react (m : Mode) (half : Bool) (o : Option StmtResult) (t : Parser) : Bool × Parser :=
  match m, o with
  | _, some .full => (false, t.markLone half)
  | .grammar, some .empty => (!half, t)
  | _, _ => (false, t.synchronize)

/-- `while (!check(TOK_RBRACE) && !check(TOK_EOF)) { if (!parse_statement()) synchronize(); }`. -/
def bodyRun (stmt : P StmtResult) (m : Mode) : Nat → Bool → Parser → Option Parser
  | 0, _, _ => none
  | n + 1, half, s =>
    if s.current.kind = .rbrace ∨ s.current.kind = .eof then some (s.markLone half)
    else
      match stmt.run m s with
      | none => none
      | some (o, t) =>
        if (react m half o t).2.unread < s.unread then
          bodyRun stmt m n (react m half o t).1 (react m half o t).2
        else none

theorem react_follows (m : Mode) (half : Bool) (o : Option StmtResult) (t : Parser) :
    Follows true t (react m half o t).2 := by
  unfold react
  split
  · exact follows_markLone (Follows.refl true t) half
  · exact Follows.refl true t
  · exact follows_synchronize t

theorem bodyRun_follows {stmt : P StmtResult} {m : Mode} {n : Nat} {half : Bool} {s t : Parser}
    (h : bodyRun stmt m n half s = some t) : Follows true s t := by
  suffices hgen : ∀ s0, Follows true s0 s → Follows true s0 t from hgen s (Follows.refl true s)
  induction n generalizing half s with
  | zero => cases h
  | succ n ih =>
    intro s0 h0
    unfold bodyRun at h
    split at h
    · cases h
      exact follows_markLone h0 half
    · next hopen =>
      have hne : s.current.kind ≠ .eof := fun he => hopen (Or.inr he)
      split at h
      · cases h
      · next o u hu =>
        split at h
        · exact ih h s0 ((h0.reach hne).trans ((stmt.reach hu).trans (react_follows m half o u)))
        · cases h

/-- Where the grammar's reading of a body is clean, the code's reading is the same: a pair
of empty statements is one round of the code's loop. -/
theorem bodyRun_reads (stmt : StmtParser) (n : Nat) :
    ∀ {s t : Parser}, bodyRun stmt.p .grammar n false s = some t → t.Clean →
      ∀ {n' : Nat}, s.unread < n' → bodyRun stmt.p .code n' false s = some t := by
  induction n using Nat.strongRecOn with
  | _ n ih =>
    intro s t h hc n' hn'
    obtain ⟨n'', rfl⟩ : ∃ k, n' = k + 1 := ⟨n' - 1, by omega⟩
    cases n with
    | zero => cases h
    | succ n =>
      unfold bodyRun at h ⊢
      split at h
      · next hclose =>
        simp only [hclose, if_true]
        exact h
      next hopen =>
      simp only [hopen, if_false]
      split at h
      · cases h
      next o u hu =>
      split at h
      · next hlt =>
        have hcv : (react .grammar false o u).2.Clean := Clean.of_follows (bodyRun_follows h) hc
        have hcu : u.Clean := Clean.of_follows (react_follows .grammar false o u) hcv
        have hcode := stmt.p.reads hu hcu
        rw [hcode]
        dsimp only
        match o, hu, hlt, h, hcode with
        | none, hu, _, _, _ => exact absurd hcu (not_clean_of_panic (stmt.p.failed hu))
        | some .full, _, hlt, h, _ =>
          have hlt' : (react .code false (some .full) u).2.unread < s.unread := hlt
          simp only [hlt', if_true]
          exact ih n (Nat.lt_succ_self n) h hc (by omega)
        | some .empty, _, hlt, h, _ =>
          -- the partner follows: otherwise the mark of the lone one would have stayed
          have hlt' : u.unread < s.unread := hlt
          cases n with
          | zero => cases h
          | succ n =>
            have h' : bodyRun stmt.p .grammar (n + 1) true u = some t := h
            unfold bodyRun at h'
            split at h'
            · cases h'
              exact absurd hc (not_clean_markLone u)
            split at h'
            · cases h'
            next o' v hv =>
            split at h'
            · next hlt2 =>
              have hcw : (react .grammar true o' v).2.Clean :=
                Clean.of_follows (bodyRun_follows h') hc
              match o', hv, hlt2, h', hcw with
              | none, hv, _, _, hcw =>
                have hcv := Clean.of_follows (react_follows .grammar true none v) hcw
                exact absurd hcv (not_clean_of_panic (stmt.p.failed hv))
              | some .full, _, _, _, hcw => exact absurd hcw (not_clean_markLone v)
              | some .empty, hv, hlt2, h', _ =>
                obtain ⟨hsemi, rfl⟩ := stmt.empty_semi hv
                have hcalm : u.panicMode = false := by
                  cases hp : u.panicMode with
                  | false => rfl
                  | true => exact absurd hcu (not_clean_of_panic hp)
                have hsync : (react .code false (some .empty) u).2 = u.advance :=
                  synchronize_semi hcalm hsemi
                have hlt3 : u.advance.unread < u.unread := hlt2
                rw [hsync]
                have hlt4 : u.advance.unread < s.unread := by omega
                simp only [hlt4, if_true]
                exact ih n (by omega) h' hc (by omega)
            · cases h'
      · cases h

/-- A body after its `{`, with its `}`. -/
def bodyUntilBrace (stmt : StmtParser) (message : String) : P Unit where
  run m s :=
    (bodyRun stmt.p m (s.unread + 1) false s).map fun t => (some (), t.closeBrace message)
  reach := by
    intro m s o t ht
    obtain ⟨u, hu, he⟩ := Option.map_eq_some_iff.mp ht
    cases he
    exact reach_closeBrace (bodyRun_follows hu) message
  failed := by
    intro m s t ht
    obtain ⟨u, hu, he⟩ := Option.map_eq_some_iff.mp ht
    cases he
  reads := by
    intro s o t ht hc
    obtain ⟨u, hu, he⟩ := Option.map_eq_some_iff.mp ht
    cases he
    rw [bodyRun_reads stmt _ hu (clean_of_closeBrace hc) (Nat.lt_succ_self _)]
    rfl

/-! ## The arms of a `match` -/

/-- How an arm answers to its statement. An empty statement as an arm has no partner. -/
def armReact (m : Mode) (o : Option StmtResult) (t : Parser) : Parser :=
  match m, o with
  | _, some .full => t
  | .grammar, some .empty => t.markLone true
  | _, _ => t.synchronize

/-- The body of an arm: a `{ … }` block or a single statement. `false` leaves the loop. -/
def armBody (block : P Unit) (stmt : P StmtResult) (m : Mode) (s : Parser) :
    Option (Bool × Parser) :=
  if s.current.kind = .lbrace then (block.run m s).map fun r => (r.1.isSome, r.2)
  else (stmt.run m s).map fun r => (true, armReact m r.1 r.2)

/-- The arm's node and the optional `,` behind it. -/
def armEnd (s : Parser) (cp : Nat) : Parser :=
  let t := s.wrap cp .matchArm
  if t.current.kind = .comma then t.advance else t

/-- The loop over the arms. A malformed pattern leaves it. -/
def armsRun (pattern block : P Unit) (stmt : P StmtResult) (m : Mode) :
    Nat → Parser → Option Parser
  | 0, _ => none
  | n + 1, s =>
    if s.current.kind = .rbrace ∨ s.current.kind = .eof then some s
    else
      match pattern.run m s with
      | none => none
      | some (none, t) => some t
      | some (some (), t) =>
        match armBody block stmt m t with
        | none => none
        | some (false, u) => some u
        | some (true, u) =>
          if (armEnd u s.items.length).unread < s.unread then
            armsRun pattern block stmt m n (armEnd u s.items.length)
          else none

theorem armReact_follows (m : Mode) (o : Option StmtResult) (t : Parser) :
    Follows true t (armReact m o t) := by
  unfold armReact
  split
  · exact Follows.refl true t
  · exact follows_markLone (Follows.refl true t) true
  · exact follows_synchronize t

theorem armBody_follows {block : P Unit} {stmt : P StmtResult} {m : Mode} {s t : Parser} {b : Bool}
    (h : armBody block stmt m s = some (b, t)) : Follows true s t := by
  unfold armBody at h
  split at h
  · obtain ⟨⟨o, u⟩, hu, he⟩ := Option.map_eq_some_iff.mp h
    cases he
    exact (block.reach hu).weaken
  · obtain ⟨⟨o, u⟩, hu, he⟩ := Option.map_eq_some_iff.mp h
    cases he
    exact (stmt.reach hu).trans (armReact_follows m o u)

theorem armEnd_follows {b : Bool} {s t : Parser} (h : Follows b s t) (cp : Nat) :
    Follows b s (armEnd t cp) := by
  have hw : Follows b s (t.wrap cp .matchArm) := by
    apply follows_of_same h
    all_goals first
      | exact AccountLemmas.leaves_wrap t cp .matchArm
      | (unfold Parser.wrap; split <;> first | rfl | exact id)
  unfold armEnd
  dsimp only
  split
  · next hk =>
    have hne : (t.wrap cp .matchArm).current.kind ≠ .eof := by rw [hk]; decide
    exact ((hw.reach hne).trans (reach_advance hne)).weaken
  · exact hw

theorem armsRun_follows {pattern block : P Unit} {stmt : P StmtResult} {m : Mode} {n : Nat}
    {s t : Parser} (h : armsRun pattern block stmt m n s = some t) : Follows true s t := by
  suffices hgen : ∀ s0, Follows true s0 s → Follows true s0 t from hgen s (Follows.refl true s)
  induction n generalizing s with
  | zero => cases h
  | succ n ih =>
    intro s0 h0
    unfold armsRun at h
    split at h
    · cases h
      exact h0
    next hopen =>
    have hne : s.current.kind ≠ .eof := fun he => hopen (Or.inr he)
    split at h
    · cases h
    · next u hu =>
      cases h
      exact (h0.reach hne).trans (pattern.reach hu).weaken
    · next u hu =>
      have hsu : Reach s0 u := (h0.reach hne).trans (pattern.reach hu)
      split at h
      · cases h
      · next v hv =>
        cases h
        exact hsu.trans (armBody_follows hv)
      · next v hv =>
        split at h
        · exact ih h s0 (armEnd_follows (hsu.trans (armBody_follows hv)) _)
        · cases h

theorem armBody_reads {block : P Unit} {stmt : P StmtResult} {s t : Parser} {b : Bool}
    (h : armBody block stmt .grammar s = some (b, t)) (hc : t.Clean) :
    armBody block stmt .code s = some (b, t) := by
  unfold armBody at h ⊢
  split at h
  · next hk =>
    obtain ⟨⟨o, u⟩, hu, he⟩ := Option.map_eq_some_iff.mp h
    cases he
    simp only [hk, if_true, block.reads hu hc, Option.map_some]
  · next hk =>
    obtain ⟨⟨o, u⟩, hu, he⟩ := Option.map_eq_some_iff.mp h
    cases he
    have hcu : u.Clean := Clean.of_follows (armReact_follows .grammar o u) hc
    simp only [hk, if_false, stmt.reads hu hcu, Option.map_some]
    match o, hu, hc with
    | none, hu, _ => exact absurd hcu (not_clean_of_panic (stmt.failed hu))
    | some .full, _, _ => rfl
    | some .empty, _, hc => exact absurd hc (not_clean_markLone u)

theorem armsRun_reads {pattern block : P Unit} {stmt : P StmtResult} {n : Nat} {s t : Parser}
    (h : armsRun pattern block stmt .grammar n s = some t) (hc : t.Clean) :
    armsRun pattern block stmt .code n s = some t := by
  induction n generalizing s with
  | zero => cases h
  | succ n ih =>
    unfold armsRun at h ⊢
    split at h
    · next hclose =>
      simp only [hclose, if_true]
      exact h
    next hopen =>
    simp only [hopen, if_false]
    split at h
    · cases h
    · next u hu =>
      cases h
      rw [pattern.reads hu hc]
    · next u hu =>
      split at h
      · cases h
      · next v hv =>
        cases h
        rw [pattern.reads hu (Clean.of_follows (armBody_follows hv) hc)]
        simp only [armBody_reads hv hc]
      · next v hv =>
        split at h
        · next hlt =>
          have hcw : (armEnd v s.items.length).Clean := Clean.of_follows (armsRun_follows h) hc
          have hcv : v.Clean :=
            Clean.of_follows (armEnd_follows (Follows.refl true v) s.items.length) hcw
          rw [pattern.reads hu (Clean.of_follows (armBody_follows hv) hcv)]
          simp only [armBody_reads hv hcv, hlt, if_true]
          exact ih h
        · cases h

/-- The arms of a `match` after its `{`, with its `}`. -/
def matchArms (pattern block : P Unit) (stmt : P StmtResult) (message : String) : P Unit where
  run m s :=
    (armsRun pattern block stmt m (s.unread + 1) s).map fun t => (some (), t.closeBrace message)
  reach := by
    intro m s o t ht
    obtain ⟨u, hu, he⟩ := Option.map_eq_some_iff.mp ht
    cases he
    exact reach_closeBrace (armsRun_follows hu) message
  failed := by
    intro m s t ht
    obtain ⟨u, hu, he⟩ := Option.map_eq_some_iff.mp ht
    cases he
  reads := by
    intro s o t ht hc
    obtain ⟨u, hu, he⟩ := Option.map_eq_some_iff.mp ht
    cases he
    rw [armsRun_reads hu (clean_of_closeBrace hc)]
    rfl

/-! ## The body of an `#each_field` -/

/-- `while (!check(TOK_RBRACE) && !check(TOK_EOF)) { if (!parse_statement()) break; }`. The
code agrees with the grammar on an empty statement that stands last. -/
def eachFieldRun (stmt : P StmtResult) (m : Mode) : Nat → Parser → Option Parser
  | 0, _ => none
  | n + 1, s =>
    if s.current.kind = .rbrace ∨ s.current.kind = .eof then some s
    else
      match stmt.run m s with
      | none => none
      | some (none, t) => some t
      | some (some .full, t) => if t.unread < s.unread then eachFieldRun stmt m n t else none
      | some (some .empty, t) =>
        match m with
        | .code => some t
        | .grammar =>
          let u := t.markLone (t.current.kind != .rbrace)
          if u.unread < s.unread then eachFieldRun stmt m n u else none

theorem eachFieldRun_reach {stmt : P StmtResult} {m : Mode} {n : Nat} {s t : Parser}
    (h : eachFieldRun stmt m n s = some t) : Reach s t := by
  induction n generalizing s with
  | zero => cases h
  | succ n ih =>
    unfold eachFieldRun at h
    split at h
    · cases h
      exact Follows.refl false _
    split at h
    · cases h
    · next u hu =>
      cases h
      exact stmt.reach hu
    · next u hu =>
      split at h
      · exact (stmt.reach hu).trans (ih h)
      · cases h
    · next u hu =>
      cases m with
      | code =>
        cases h
        exact stmt.reach hu
      | grammar =>
        dsimp only at h
        split at h
        · exact (follows_markLone (stmt.reach hu) _).trans (ih h)
        · cases h

theorem eachFieldRun_reads {stmt : P StmtResult} {n : Nat} {s t : Parser}
    (h : eachFieldRun stmt .grammar n s = some t) (hc : t.Clean) :
    eachFieldRun stmt .code n s = some t := by
  induction n generalizing s with
  | zero => cases h
  | succ n ih =>
    unfold eachFieldRun at h ⊢
    split at h
    · next hclose =>
      simp only [hclose, if_true]
      exact h
    next hopen =>
    simp only [hopen, if_false]
    split at h
    · cases h
    · next u hu =>
      cases h
      rw [stmt.reads hu hc]
    · next u hu =>
      split at h
      · next hlt =>
        rw [stmt.reads hu (Clean.of_follows (eachFieldRun_reach h) hc)]
        simp only [hlt, if_true]
        exact ih h
      · cases h
    · next u hu =>
      dsimp only at h
      split at h
      · have hcm : (u.markLone (u.current.kind != .rbrace)).Clean :=
          Clean.of_follows (eachFieldRun_reach h) hc
        have hcu : u.Clean :=
          Clean.of_follows (follows_markLone (Follows.refl true u) _) hcm
        cases hk : u.current.kind != .rbrace with
        | true =>
          rw [hk] at hcm
          exact absurd hcm (not_clean_markLone u)
        | false =>
          -- the next round of the grammar's loop is its last
          have hrb : u.current.kind = .rbrace := by simpa using hk
          rw [hk] at h
          rw [stmt.reads hu hcu]
          cases n with
          | zero => cases h
          | succ n =>
            unfold eachFieldRun at h
            have hu' : (u.markLone false) = u := rfl
            rw [hu'] at h
            simp only [hrb, true_or, if_true] at h
            exact h
      · cases h

/-- The body of an `#each_field` after its `{`, with its `}`. -/
def eachFieldBody (stmt : P StmtResult) (message : String) : P Unit where
  run m s :=
    (eachFieldRun stmt m (s.unread + 1) s).map fun t => (some (), t.closeBrace message)
  reach := by
    intro m s o t ht
    obtain ⟨u, hu, he⟩ := Option.map_eq_some_iff.mp ht
    cases he
    exact reach_closeBrace (eachFieldRun_reach hu) message
  failed := by
    intro m s t ht
    obtain ⟨u, hu, he⟩ := Option.map_eq_some_iff.mp ht
    cases he
  reads := by
    intro s o t ht hc
    obtain ⟨u, hu, he⟩ := Option.map_eq_some_iff.mp ht
    cases he
    rw [eachFieldRun_reads hu (clean_of_closeBrace hc)]
    rfl

end Arche.Syntax
