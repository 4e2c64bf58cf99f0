import Arche.Syntax.BodyShape
import Arche.Syntax.Operators

/-!
# The functions of the parser are local

Every function of the parser is `Local`, given that the functions of its circle are. Most are so
by the rules of `LocalRules`. `parse_expression` is by its operator trees, and `parse_statement` as
long as it does not reach its recursion limit, where it gives back a counter that is one too
small.
-/

namespace Arche.Syntax

set_option synthInstance.maxSize 1000000

open P Arche.Syntax.Parser MoveLemmas

variable {O : Operands} {pre pre' : List Elem} {d : Option Int}

instance (c : Prop) [Decidable c] (k k' : SyntaxNodeKind) [h : IsTrue (isOtherKind k)]
    [h' : IsTrue (isOtherKind k')] : IsTrue (isOtherKind (if c then k else k')) := by
  split <;> assumption

section

variable (r r' : Rec)

instance [h : RecLocal O d r r'] : Local pre pre' d r.expr r'.expr := h.expr pre pre'
instance [h : RecLocal O d r r'] : Local pre pre' d r.type r'.type := h.type pre pre'
instance [h : RecLocal O d r r'] : Local pre pre' d r.unary r'.unary := h.unary pre pre'
instance [h : RecLocal O d r r'] : Local pre pre' d r.stmt.p r'.stmt.p := h.stmt pre pre'
instance [h : RecLocal O d r r'] : Local pre pre' d r.decl r'.decl := h.decl pre pre'

instance : Local pre pre' d parseQueryColumns parseQueryColumns := by
  unfold parseQueryColumns
  infer_instance

variable [RecLocal O d r r']

/-! ## Types and signatures -/

instance : Local pre pre' d (parseType r) (parseType r') := by
  unfold parseType
  infer_instance

instance : Local pre pre' d (paramNode r) (paramNode r') := by
  unfold paramNode
  infer_instance

instance (isExtern : Bool) :
    Local pre pre' d (parseParamListBody r isExtern) (parseParamListBody r' isExtern) := by
  unfold parseParamListBody
  infer_instance

instance : Local pre pre' d (outParamNode r) (outParamNode r') := by
  unfold outParamNode
  infer_instance

instance : Local pre pre' d (parseProcOutList r) (parseProcOutList r') := by
  unfold parseProcOutList
  infer_instance

instance (isExtern : Bool) :
    Local pre pre' d (parseFuncReturn r isExtern) (parseFuncReturn r' isExtern) := by
  unfold parseFuncReturn
  infer_instance

instance (isExtern : Bool) :
    Local pre pre' d (parseProcSig r isExtern) (parseProcSig r' isExtern) := by
  unfold parseProcSig
  infer_instance

instance (isExtern : Bool) :
    Local pre pre' d (parseFuncSig r isExtern) (parseFuncSig r' isExtern) := by
  unfold parseFuncSig
  infer_instance

instance : Local pre pre' d (parseDim r) (parseDim r') := by
  unfold parseDim
  infer_instance

instance (c : Dim) : Local pre pre' d (parseDims r c) (parseDims r' c) := by
  unfold parseDims
  infer_instance

instance : Local pre pre' d (parseArrayType r) (parseArrayType r') := by
  unfold parseArrayType
  infer_instance

instance : Local pre pre' d (parseNamedType r) (parseNamedType r') := by
  unfold parseNamedType
  infer_instance

instance : Local pre pre' d (parseTypeInner r) (parseTypeInner r') := by
  unfold parseTypeInner
  infer_instance

omit [RecLocal O d r r'] in
theorem parseTypeInner_other :
    Returns (parseTypeInner r) fun form => isOtherKind form.syntaxKind := by
  unfold parseTypeInner parseArrayType parseNamedType
  infer_instance

omit [RecLocal O d r r'] in
theorem parseTypeForm_other :
    Returns (parseTypeForm r) fun form => isOtherKind form.syntaxKind := by
  constructor
  intro m s form t h
  obtain ⟨cp, _, -, h⟩ := bind_some h
  obtain ⟨failedKind, _, -, h⟩ := bind_some h
  obtain ⟨form', _, hform, h⟩ := bind_some h
  cases h
  exact (parseTypeInner_other r).out (onFail_some hform)

theorem failedTypeKind_other (s : Parser) : isOtherKind (failedTypeKind s) = true := by
  unfold failedTypeKind
  split
  · rfl
  · split <;> rfl

instance : Local pre pre' d (parseTypeForm r) (parseTypeForm r') := by
  have hask : ∀ k, Local pre pre' d
      (do
        let failedKind ← ask failedTypeKind
        let form ← orWrap (parseTypeInner r) (pre.length + k) failedKind
        wrap (pre.length + k) form.syntaxKind
        return form)
      (do
        let failedKind ← ask failedTypeKind
        let form ← orWrap (parseTypeInner r') (pre'.length + k) failedKind
        wrap (pre'.length + k) form.syntaxKind
        return form) := by
    intro k
    apply Local.bind_of inferInstance
    intro m s failedKind t hfailed
    cases hfailed
    have hfailed : IsTrue (isOtherKind (failedTypeKind s)) := ⟨failedTypeKind_other s⟩
    apply Local.bind_of inferInstance
    intro m s' form t' hform
    have hkind : IsTrue (isOtherKind form.syntaxKind) :=
      ⟨(parseTypeInner_other r).out (onFail_some hform)⟩
    infer_instance
  unfold parseTypeForm
  infer_instance

instance : Local pre pre' d (parseTupleNameGroup r) (parseTupleNameGroup r') := by
  have hblind : Blind fun s => s.current.kind == .lparen || s.current.kind == .number ||
      s.current.kind == .string || s.current.kind == .minus := ⟨fun _ _ => rfl⟩
  unfold parseTupleNameGroup
  infer_instance

instance : Local pre pre' d (parseArchField r) (parseArchField r') := by
  unfold parseArchField
  infer_instance

instance : Local pre pre' d (archFields r) (archFields r') := by
  unfold archFields
  infer_instance

end

/-! ## Statements and the loops over them -/

section

variable {stmt stmt' : P StmtResult}

theorem react_beside (m : Mode) (half : Bool) (o : Option StmtResult) {t : Parser} {xs : List Elem}
    (ht : Above pre d t xs) :
    Beside pre pre' d t xs (react m half o t).2 (react m half o (t.withItems (pre' ++ xs))).2 := by
  obtain ⟨new, hsync⟩ := synchronize_appends t
  unfold react
  split
  all_goals first
    | exact ht.beside
    | exact (markLone_appends _ t).beside ht
    | exact hsync.beside ht

/-- A step behind the states that two runs have reached. -/
theorem Beside.step {s t t' u : Parser} {xs : List Elem} {g : Parser → Parser}
    (h : Beside pre pre' d s xs t t')
    (hg : ∀ {ys}, Above pre d t ys → Beside pre pre' d t ys u (g (t.withItems (pre' ++ ys)))) :
    Beside pre pre' d s xs u (g t') := by
  refine h.trans fun ys hys heq => ?_
  rw [heq]
  exact hg hys

theorem bodyRun_local (hst : Local pre pre' d stmt stmt') {m : Mode} {n : Nat} {half : Bool}
    {s t : Parser} {xs : List Elem} (hs : Above pre d s xs) (h : bodyRun stmt m n half s = some t) :
    ∃ t', bodyRun stmt' m n half (s.withItems (pre' ++ xs)) = some t' ∧
      Beside pre pre' d s xs t t' := by
  induction n generalizing half s xs with
  | zero => cases h
  | succ n ih =>
    unfold bodyRun at h ⊢
    by_cases hclose : s.current.kind = .rbrace ∨ s.current.kind = .eof
    · rw [if_pos hclose] at h
      cases h
      rw [withItems_current, if_pos hclose]
      exact ⟨_, rfl, (markLone_appends half s).beside hs⟩
    · rw [if_neg hclose] at h
      rw [withItems_current, if_neg hclose]
      cases hrun : stmt.run m s with
      | none =>
        rw [hrun] at h
        cases h
      | some res =>
        obtain ⟨o, u⟩ := res
        obtain ⟨u', hu', hbeside⟩ := hst.out hs hrun
        obtain ⟨ys, hys, hgrow, hstart, hreact⟩ :=
          hbeside.step (g := fun t => (react m half o t).2) (react_beside m half o)
        have hagain : (react m half o u').1 = (react m half o u).1 := by
          cases m <;> rcases o with _ | _ | _ <;> rfl
        rw [hrun] at h
        rw [hu']
        dsimp only at h hreact ⊢
        rw [hagain, hreact, withItems_unread, withItems_unread]
        split at h
        · next hlt =>
          rw [if_pos hlt]
          obtain ⟨t', ht', hrest⟩ := ih hys h
          exact ⟨t', ht', hgrow.beside hstart hrest⟩
        · cases h

instance (stmt stmt' : StmtParser) (message : String) [hst : Local pre pre' d stmt.p stmt'.p] :
    Local pre pre' d (bodyUntilBrace stmt message) (bodyUntilBrace stmt' message) := by
  constructor
  intro m s o t xs hs h
  obtain ⟨u, hu, he⟩ := Option.map_eq_some_iff.mp h
  cases he
  obtain ⟨u', hu', hbeside⟩ := bodyRun_local hst hs hu
  refine ⟨u'.closeBrace message, Option.map_eq_some_iff.mpr ⟨u', hu', rfl⟩, ?_⟩
  refine hbeside.step (g := (·.closeBrace message)) fun hys => ?_
  obtain ⟨new, hclose⟩ := closeBrace_appends message u
  exact hclose.beside hys

theorem eachFieldRun_local (hst : Local pre pre' d stmt stmt') {m : Mode} {n : Nat} {s t : Parser}
    {xs : List Elem} (hs : Above pre d s xs) (h : eachFieldRun stmt m n s = some t) :
    ∃ t', eachFieldRun stmt' m n (s.withItems (pre' ++ xs)) = some t' ∧
      Beside pre pre' d s xs t t' := by
  induction n generalizing s xs with
  | zero => cases h
  | succ n ih =>
    unfold eachFieldRun at h ⊢
    by_cases hclose : s.current.kind = .rbrace ∨ s.current.kind = .eof
    · rw [if_pos hclose] at h
      cases h
      rw [withItems_current, if_pos hclose]
      exact ⟨_, rfl, hs.beside⟩
    rw [if_neg hclose] at h
    rw [withItems_current, if_neg hclose]
    cases hrun : stmt.run m s with
    | none =>
      rw [hrun] at h
      cases h
    | some res =>
      obtain ⟨o, u⟩ := res
      obtain ⟨u', hu', ys, hys, hgrow, hstart, rfl⟩ := hst.out hs hrun
      have hbeside : Beside pre pre' d s xs u (u.withItems (pre' ++ ys)) :=
        hgrow.beside hstart hys.beside
      rw [hrun] at h
      rw [hu']
      rcases o with _ | _ | _
      case none =>
        cases h
        exact ⟨_, rfl, hbeside⟩
      case some.full =>
        dsimp only at h ⊢
        rw [withItems_unread, withItems_unread]
        split at h
        · next hlt =>
          rw [if_pos hlt]
          obtain ⟨t', ht', hrest⟩ := ih hys h
          exact ⟨t', ht', hgrow.beside hstart hrest⟩
        · cases h
      case some.empty =>
        cases m with
        | code =>
          cases h
          exact ⟨_, rfl, hbeside⟩
        | grammar =>
          dsimp only at h ⊢
          have hmark := markLone_appends (u.current.kind != .rbrace) u
          have hbare : (u.withItems (pre' ++ ys)).markLone (u.current.kind != .rbrace) =
              (u.markLone (u.current.kind != .rbrace)).withItems (pre' ++ ys) := by
            rw [hmark.run, List.append_nil]
          rw [withItems_current, hbare, withItems_unread, withItems_unread]
          split at h
          · next hlt =>
            rw [if_pos hlt]
            have hmarked := hmark.above hys
            rw [List.append_nil] at hmarked
            obtain ⟨t', ht', hrest⟩ := ih hmarked h
            have hgrow' := hmark.grows ys
            rw [List.append_nil] at hgrow'
            exact ⟨t', ht', hgrow.beside hstart (hgrow'.beside id hrest)⟩
          · cases h

instance (message : String) [hst : Local pre pre' d stmt stmt'] :
    Local pre pre' d (eachFieldBody stmt message) (eachFieldBody stmt' message) := by
  constructor
  intro m s o t xs hs h
  obtain ⟨u, hu, he⟩ := Option.map_eq_some_iff.mp h
  cases he
  obtain ⟨u', hu', hbeside⟩ := eachFieldRun_local hst hs hu
  refine ⟨u'.closeBrace message, Option.map_eq_some_iff.mpr ⟨u', hu', rfl⟩, ?_⟩
  refine hbeside.step (g := (·.closeBrace message)) fun hys => ?_
  obtain ⟨new, hclose⟩ := closeBrace_appends message u
  exact hclose.beside hys

/-! ## The arms of a `match` -/

theorem armReact_beside (m : Mode) (o : Option StmtResult) {t : Parser} {xs : List Elem}
    (ht : Above pre d t xs) :
    Beside pre pre' d t xs (armReact m o t) (armReact m o (t.withItems (pre' ++ xs))) := by
  obtain ⟨new, hsync⟩ := synchronize_appends t
  unfold armReact
  split
  · exact ht.beside
  · exact (markLone_appends true t).beside ht
  · exact hsync.beside ht

theorem armEnd_beside (pre' : List Elem) {s : Parser} {xs : List Elem} (hs : Above pre d s xs)
    (k : Nat) :
    Beside pre pre' d s xs (armEnd s (pre.length + k))
      (armEnd (s.withItems (pre' ++ xs)) (pre'.length + k)) := by
  have hwrap : Beside pre pre' d s xs (s.wrap (pre.length + k) .matchArm)
      ((s.withItems (pre' ++ xs)).wrap (pre'.length + k) .matchArm) := wrap_beside hs k rfl
  refine hwrap.step (g := fun t => if t.current.kind = .comma then t.advance else t)
    fun {ys} hys => ?_
  unfold armEnd
  dsimp only
  split
  · next hk =>
    obtain ⟨new, hadv⟩ := advance_appends (s.wrap (pre.length + k) .matchArm)
    rw [if_pos (show ((s.wrap _ _).withItems (pre' ++ ys)).current.kind = .comma from hk)]
    exact hadv.beside hys
  · next hk =>
    rw [if_neg (show ¬ ((s.wrap _ _).withItems (pre' ++ ys)).current.kind = .comma from hk)]
    exact hys.beside

theorem armBody_local {block block' : P Unit} (hb : Local pre pre' d block block')
    (hst : Local pre pre' d stmt stmt') {m : Mode} {b : Bool} {s t : Parser} {xs : List Elem}
    (hs : Above pre d s xs) (h : armBody block stmt m s = some (b, t)) :
    ∃ t', armBody block' stmt' m (s.withItems (pre' ++ xs)) = some (b, t') ∧
      Beside pre pre' d s xs t t' := by
  unfold armBody at h ⊢
  rw [withItems_current]
  split at h
  · next hk =>
    obtain ⟨⟨o, u⟩, hu, he⟩ := Option.map_eq_some_iff.mp h
    cases he
    obtain ⟨u', hu', hbeside⟩ := hb.out hs hu
    exact ⟨u', by rw [if_pos hk, hu']; rfl, hbeside⟩
  · next hk =>
    obtain ⟨⟨o, u⟩, hu, he⟩ := Option.map_eq_some_iff.mp h
    cases he
    obtain ⟨u', hu', hbeside⟩ := hst.out hs hu
    exact ⟨armReact m o u', by rw [if_neg hk, hu']; rfl,
      hbeside.step (g := armReact m o) (armReact_beside m o)⟩

theorem armsRun_local {pattern block block' : P Unit} (hp : Local pre pre' d pattern pattern)
    (hb : Local pre pre' d block block') (hst : Local pre pre' d stmt stmt') {m : Mode} {n : Nat}
    {s t : Parser} {xs : List Elem} (hs : Above pre d s xs)
    (h : armsRun pattern block stmt m n s = some t) :
    ∃ t', armsRun pattern block' stmt' m n (s.withItems (pre' ++ xs)) = some t' ∧
      Beside pre pre' d s xs t t' := by
  induction n generalizing s xs with
  | zero => cases h
  | succ n ih =>
    unfold armsRun at h ⊢
    by_cases hclose : s.current.kind = .rbrace ∨ s.current.kind = .eof
    · rw [if_pos hclose] at h
      cases h
      rw [withItems_current, if_pos hclose]
      exact ⟨_, rfl, hs.beside⟩
    rw [if_neg hclose] at h
    rw [withItems_current, if_neg hclose]
    cases hpat : pattern.run m s with
    | none =>
      rw [hpat] at h
      cases h
    | some res =>
      obtain ⟨o, u⟩ := res
      obtain ⟨u', hu', ys, hys, hgrow, hstart, rfl⟩ := hp.out hs hpat
      rw [hpat] at h
      rw [hu']
      cases o with
      | none =>
        cases h
        exact ⟨_, rfl, hgrow.beside hstart hys.beside⟩
      | some _ =>
        dsimp only at h ⊢
        cases hbody : armBody block stmt m u with
        | none =>
          rw [hbody] at h
          cases h
        | some res =>
          obtain ⟨b, v⟩ := res
          obtain ⟨v', hv', zs, hzs, hgrow', hstart', rfl⟩ := armBody_local hb hst hys hbody
          rw [hbody] at h
          rw [hv']
          cases b with
          | false =>
            cases h
            exact ⟨_, rfl, hgrow.beside hstart (hgrow'.beside hstart' hzs.beside)⟩
          | true =>
            obtain ⟨ws, hws, hgrow'', hstart'', hend⟩ :=
              armEnd_beside pre' hzs xs.length
            have hlen : s.items.length = pre.length + xs.length := by
              rw [hs.items, List.length_append]
            dsimp only at h ⊢
            rw [hlen] at h
            rw [withItems_items, List.length_append, hend, withItems_unread, withItems_unread]
            split at h
            · next hlt =>
              rw [if_pos hlt]
              obtain ⟨t', ht', hrest⟩ := ih hws h
              exact ⟨t', ht', hgrow.beside hstart
                (hgrow'.beside hstart' (hgrow''.beside hstart'' hrest))⟩
            · cases h

instance (pattern block block' : P Unit) (message : String)
    [hp : Local pre pre' d pattern pattern] [hb : Local pre pre' d block block']
    [hst : Local pre pre' d stmt stmt'] :
    Local pre pre' d (matchArms pattern block stmt message)
      (matchArms pattern block' stmt' message) := by
  constructor
  intro m s o t xs hs h
  obtain ⟨u, hu, he⟩ := Option.map_eq_some_iff.mp h
  cases he
  obtain ⟨u', hu', hbeside⟩ := armsRun_local hp hb hst hs hu
  refine ⟨u'.closeBrace message, Option.map_eq_some_iff.mpr ⟨u', hu', rfl⟩, ?_⟩
  refine hbeside.step (g := (·.closeBrace message)) fun hys => ?_
  obtain ⟨new, hclose⟩ := closeBrace_appends message u
  exact hclose.beside hys

end

/-! ## One statement -/

/-- A statement is counted from its entry on. -/
theorem above_enterStmt {s : Parser} {xs : List Elem} (h : Above pre d s xs) :
    Above pre (d.map (· + 1)) s.enterStmt xs := by
  refine ⟨h.items, fun k hk => ?_⟩
  obtain ⟨j, hj, rfl⟩ := Option.map_eq_some_iff.mp hk
  exact congrArg (· + 1) (h.depth j hj)

theorem above_leaveStmt {s : Parser} {xs : List Elem} (h : Above pre (d.map (· + 1)) s xs) :
    Above pre d s.leaveStmt xs := by
  refine ⟨h.items, fun k hk => ?_⟩
  have hdepth : s.recursionDepth = k + 1 :=
    h.depth (k + 1) (Option.map_eq_some_iff.mpr ⟨k, hk, rfl⟩)
  have hleave : s.leaveStmt.recursionDepth = s.recursionDepth - 1 := rfl
  omega

/-- The counter comes back as it was, unless it was at its limit. -/
theorem local_statement {form form' : P SyntaxNodeKind} (hd : ∀ k ∈ d, k ≤ maxRecursionDepth)
    (hform : Local pre pre' (d.map (· + 1)) form form') (hkind : Returns form isOtherKind) :
    Local pre pre' d (statement form).p (statement form').p := by
  constructor
  intro m s o t xs hs h
  have h' : statementRun form m s = some (o, t) := h
  have hrun : (statement form').p.run m (s.withItems (pre' ++ xs)) =
      statementRun form' m (s.withItems (pre' ++ xs)) := rfl
  rw [hrun]
  unfold statementRun at h' ⊢
  rw [withItems_depth, withItems_current]
  by_cases hlimit : s.recursionDepth > maxRecursionDepth
  · rw [if_pos hlimit] at h'
    rw [if_pos hlimit]
    cases h'
    have hreport := report_appends "Recursion limit exceeded" s
    have habove := hreport.above hs
    rw [List.append_nil] at habove
    have hgrow := hreport.grows xs
    rw [List.append_nil] at hgrow
    obtain ⟨ls, hls, hcons⟩ := hgrow.leaves
    refine ⟨_, rfl, xs, ⟨habove.items, fun k hk => ?_⟩,
      ⟨hgrow.climbed, ls, hls, hcons.flagged, hcons.tokens⟩, id, ?_⟩
    · -- a counter that is kept is not at its limit
      have hle := hd k hk
      have hdepth := hs.depth k hk
      omega
    · rw [hreport.run, List.append_nil]
      rfl
  rw [if_neg hlimit] at h'
  rw [if_neg hlimit]
  by_cases hsemi : s.current.kind = .semi
  · rw [if_pos hsemi] at h'
    rw [if_pos hsemi]
    cases h'
    obtain ⟨new, hadv⟩ := advance_appends s
    refine ⟨_, rfl, ?_⟩
    rw [advance_enter_leave, advance_enter_leave]
    exact hadv.beside hs
  rw [if_neg hsemi] at h'
  rw [if_neg hsemi]
  cases hbody : form.run m s.enterStmt with
  | none =>
    rw [hbody] at h'
    cases h'
  | some res =>
    obtain ⟨o', u⟩ := res
    obtain ⟨u', hu', ys, hys, hgrow, hstart, rfl⟩ := hform.out (above_enterStmt hs) hbody
    have hu : form'.run m (s.withItems (pre' ++ xs)).enterStmt =
        some (o', u.withItems (pre' ++ ys)) := hu'
    obtain ⟨ls, hls, hcons⟩ := hgrow.leaves
    have hleave : Beside pre pre' d s xs u.leaveStmt (u.leaveStmt.withItems (pre' ++ ys)) :=
      ⟨ys, above_leaveStmt hys, ⟨hgrow.climbed, ls, hls, hcons.flagged, hcons.tokens⟩, hstart, rfl⟩
    rw [hbody] at h'
    rw [hu]
    cases o' with
    | none =>
      cases h'
      exact ⟨_, rfl, hleave⟩
    | some kind =>
      cases h'
      refine ⟨_, rfl, ?_⟩
      rw [hs.items, withItems_items, List.length_append, List.length_append]
      refine hleave.step (g := (·.wrap (pre'.length + xs.length) kind)) fun hzs => ?_
      exact wrap_beside hzs xs.length (hkind.out hbody)

/-! ## Bodies and expressions -/

instance : Local pre pre' d parseGroupForm parseGroupForm := by
  unfold parseGroupForm
  infer_instance

instance : Local pre pre' d parseOptEff parseOptEff := by
  unfold parseOptEff
  infer_instance

instance : Local pre pre' d parseOptRowBind parseOptRowBind := by
  unfold parseOptRowBind
  infer_instance

instance : Local pre pre' d parseOptWrites parseOptWrites := by
  unfold parseOptWrites
  infer_instance

instance (message : String) :
    Local pre pre' d (parseQueryThing message) (parseQueryThing message) := by
  unfold parseQueryThing
  infer_instance

instance : Local pre pre' d enumVariant enumVariant := by
  unfold enumVariant
  infer_instance

instance : Local pre pre' d parseEnumExpr parseEnumExpr := by
  unfold parseEnumExpr
  infer_instance

instance (kind : SyntaxNodeKind) :
    Local pre pre' d (parseOptPolicy kind) (parseOptPolicy kind) := by
  unfold parseOptPolicy
  infer_instance

section

variable (r r' : Rec) [RecLocal O d r r']

instance : Local pre pre' d (parseBlockBody r) (parseBlockBody r') := by
  unfold parseBlockBody
  infer_instance

instance (isExtern : Bool) :
    Local pre pre' d (parseProcForm r isExtern) (parseProcForm r' isExtern) := by
  unfold parseProcForm
  infer_instance

instance : Local pre pre' d (parseFuncForm r) (parseFuncForm r') := by
  unfold parseFuncForm
  infer_instance

instance : Local pre pre' d (parsePolicyForm r) (parsePolicyForm r') := by
  unfold parsePolicyForm
  infer_instance

instance : Local pre pre' d (parseBracketIndexOrSlice r) (parseBracketIndexOrSlice r') := by
  unfold parseBracketIndexOrSlice
  infer_instance

instance : Local pre pre' d (parseArrayLit r) (parseArrayLit r') := by
  unfold parseArrayLit
  infer_instance

instance : Local pre pre' d (parseArchExpr r) (parseArchExpr r') := by
  unfold parseArchExpr
  infer_instance

instance : Local pre pre' d (parseMapExpr r) (parseMapExpr r') := by
  unfold parseMapExpr
  infer_instance

instance : Local pre pre' d (parseSystemExpr r) (parseSystemExpr r') := by
  unfold parseSystemExpr
  infer_instance

instance : Local pre pre' d (sumVariant r) (sumVariant r') := by
  unfold sumVariant
  infer_instance

instance : Local pre pre' d (parseSumExpr r) (parseSumExpr r') := by
  unfold parseSumExpr
  infer_instance

instance (trailing : Bool) :
    Local pre pre' d (countExprs r trailing) (countExprs r' trailing) := by
  unfold countExprs
  infer_instance

instance : Local pre pre' d (entityField r) (entityField r') := by
  unfold entityField
  infer_instance

instance : Local pre pre' d (parseEntityExpr r) (parseEntityExpr r') := by
  unfold parseEntityExpr
  infer_instance

instance : Local pre pre' d (parseArgs r) (parseArgs r') := by
  unfold parseArgs
  infer_instance

instance : Local pre pre' d (parseIndex r) (parseIndex r') := by
  unfold parseIndex
  infer_instance

instance : Local pre pre' d (parseFieldChain r) (parseFieldChain r') := by
  unfold parseFieldChain
  infer_instance

instance (isCollective : Bool) :
    Local pre pre' d (parseCall r isCollective) (parseCall r' isCollective) := by
  unfold parseCall
  infer_instance

instance (k : Nat) (isTable isSum isCollective : Bool) :
    Local pre pre' d (parseNamePrimary r (pre.length + k) isTable isSum isCollective)
      (parseNamePrimary r' (pre'.length + k) isTable isSum isCollective) := by
  unfold parseNamePrimary
  infer_instance

instance (k : Nat) :
    Local pre pre' d (parseParen r (pre.length + k)) (parseParen r' (pre'.length + k)) := by
  unfold parseParen
  infer_instance

instance : Local pre pre' d (parsePrimaryExpr r) (parsePrimaryExpr r') := by
  unfold parsePrimaryExpr
  infer_instance

omit [RecLocal O d r r'] in
theorem parsePrimaryExpr_other : Returns (parsePrimaryExpr r) isOtherKind := by
  have hproc : ∀ isExtern, Returns (parseProcForm r isExtern) isOtherKind := by
    intro isExtern
    unfold parseProcForm
    infer_instance
  have hname : ∀ cp isTable isSum isCollective,
      Returns (parseNamePrimary r cp isTable isSum isCollective) isOtherKind := by
    intro cp isTable isSum isCollective
    unfold parseNamePrimary parseSumExpr parseEntityExpr parseFieldChain parseIndex parseArgs
      parseCall
    infer_instance
  have hmap : Returns (parseMapExpr r) isOtherKind := by
    unfold parseMapExpr
    infer_instance
  have hsystem : Returns (parseSystemExpr r) isOtherKind := by
    unfold parseSystemExpr
    infer_instance
  have hpolicy : Returns (parsePolicyForm r) isOtherKind := by
    unfold parsePolicyForm
    infer_instance
  unfold parsePrimaryExpr parseArrayLit parseGroupForm parseFuncForm parseArchExpr parseEnumExpr
  infer_instance

omit [RecLocal O d r r'] in
theorem postfixGroup_other {cp : Nat} {kind : SyntaxNodeKind} (hk : isOtherKind kind = true) :
    Returns (postfixGroup r cp kind) fun res => isOtherKind res.2 := by
  have hkind : IsTrue (isOtherKind kind) := ⟨hk⟩
  have hindex : Returns (do
      let kind' ← parseIndex r
      parseOptPolicy kind'
      return (true, kind')) fun res : Bool × SyntaxNodeKind => isOtherKind res.2 := by
    have hreturns : Returns (parseIndex r) isOtherKind := by
      unfold parseIndex
      infer_instance
    apply Returns.bound isOtherKind hreturns
    intro kind' hk'
    have hkind' : IsTrue (isOtherKind kind') := ⟨hk'⟩
    infer_instance
  unfold postfixGroup
  infer_instance

instance (k : Nat) (kind : SyntaxNodeKind) :
    Local pre pre' d (postfixGroup r (pre.length + k) kind)
      (postfixGroup r' (pre'.length + k) kind) := by
  cases hk : isOtherKind kind with
  | true =>
    have hkind : IsTrue (isOtherKind kind) := ⟨hk⟩
    unfold postfixGroup
    infer_instance
  | false =>
    -- nothing follows a binary node
    obtain rfl : kind = .binaryExpr := by cases kind <;> first | rfl | cases hk
    constructor
    intro m s o t xs hs h
    cases h
    exact ⟨_, rfl, hs.beside⟩

instance : Local pre pre' d (parsePostfix r) (parsePostfix r') := by
  have hprimary : ∀ k, Local pre pre' d
      (do
        let kind ← parsePrimaryExpr r
        parseOptPolicy kind
        let kind' ← loopOn kind (postfixGroup r (pre.length + k))
        if ← ask (·.singleNode (pre.length + k)) then return ()
        else wrap (pre.length + k) kind')
      (do
        let kind ← parsePrimaryExpr r'
        parseOptPolicy kind
        let kind' ← loopOn kind (postfixGroup r' (pre'.length + k))
        if ← ask (·.singleNode (pre'.length + k)) then return ()
        else wrap (pre'.length + k) kind') := by
    intro k
    apply Local.bind_of inferInstance
    intro m s kind t hprimary
    have hkind := (parsePrimaryExpr_other r).out hprimary
    apply Local.bind_of inferInstance
    intro m' s' _ t' _
    apply Local.bind_of inferInstance
    intro m'' s'' kind' t'' hloop
    have hkind' : IsTrue (isOtherKind kind') :=
      ⟨loopRun_result (fun a ha => postfixGroup_other r ha) hkind hloop⟩
    infer_instance
  unfold parsePostfix
  infer_instance

instance : Local pre pre' d (parseUnaryExpr r) (parseUnaryExpr r') := by
  unfold parseUnaryExpr
  infer_instance

end

/-! ## Operands -/

/-- A successful `p` leaves items, the first of which is no binary node. -/
class Opens {α : Type} (pre pre' : List Elem) (d : Option Int) (p q : P α) : Prop where
  out : ∀ {m s a t ys}, Above pre d s [] → p.run m s = some (some a, t) → Above pre d t ys →
    Starts ys

@[reducible]
def isNoError : TokenKind → Bool
  | .error => false
  | _ => true

theorem starts_advance {s : Parser} {ys : List Elem} (hs : Above pre d s [])
    (hne : s.current.kind ≠ .eof) (herr : s.current.kind ≠ .error)
    (hys : Above pre d s.advance ys) : Starts ys := by
  obtain ⟨took, cs, hitems, -, htook⟩ := advance_items s
  rcases htook with ⟨-, hend⟩ | ⟨a, b, c, e, rfl⟩
  · rcases hend with hend | hend
    · exact absurd hend hne
    · exact absurd hend herr
  · have heq : pre ++ ys = pre ++ (.token s.current.kind a b c e :: cs) := by
      rw [← hys.items, hitems, hs.items, List.append_nil]
      rfl
    obtain rfl := List.append_cancel_left heq
    exact ⟨_, cs, rfl, nofun⟩

section

variable {α β : Type}

instance (message : String) : Opens pre pre' d (fail message : P α) (fail message) :=
  ⟨fun _ h => by cases h⟩

instance (k : TokenKind) (hk : (TokenKind.eof == k) = false) (p q p' q' : P α)
    [herr : IsTrue (isNoError k)] [hp : Local pre pre' d p p'] [hq : Opens pre pre' d q q'] :
    Opens pre pre' d (matchTok k hk >>= fun b => if b = true then p else q)
      (matchTok k hk >>= fun b => if b = true then p' else q') := by
  constructor
  intro m s a t ys hs h hys
  obtain ⟨b, u, hu, ht⟩ := bind_some h
  rcases matchTok_run hu with ⟨rfl, rfl, rfl⟩ | ⟨rfl, rfl⟩
  · have hne : s.current.kind ≠ .eof := by
      intro he
      rw [he] at hk
      cases hk
    have hno : s.current.kind ≠ .error := by
      intro he
      have hout := herr.out
      rw [he] at hout
      cases hout
    obtain ⟨new, hadv⟩ := advance_appends s
    have hnew := hadv.above hs
    obtain ⟨-, -, zs, hzs, -, hstart, -⟩ := hp.out hnew ht
    rw [hys.cancel hzs]
    exact hstart (starts_advance hs hne hno hnew)
  · exact hq.out hs ht hys

instance (f : Parser → β) (p q : β → P α) [hp : ∀ b, Opens pre pre' d (p b) (q b)] :
    Opens pre pre' d (ask f >>= p) (ask f >>= q) :=
  ⟨fun {_ s _ _ _} hs h hys => (hp (f s)).out hs h hys⟩

instance (priority := 10500) (p q : Nat → P α)
    [hp : ∀ k, Opens pre pre' d (p (pre.length + k)) (q (pre'.length + k))] :
    Opens pre pre' d (checkpoint >>= p) (checkpoint >>= q) := by
  constructor
  intro m s a t ys hs h hys
  rw [checkpoint_run, hs.items, List.length_append] at h
  exact (hp 0).out hs h hys

end

section

variable (r r' : Rec) [RecLocal O d r r']

instance : Opens pre pre' d (parsePrimaryExpr r) (parsePrimaryExpr r') := by
  unfold parsePrimaryExpr
  infer_instance

end

/-- Items that are one node, or are made one. -/
theorem node_of_wrap {s : Parser} {xs : List Elem} {kind : SyntaxNodeKind} (hs : Above pre d s xs)
    (hstart : Starts xs) : Above pre d (s.wrap pre.length kind) [.node kind xs] := by
  obtain ⟨x, rest, rfl, -⟩ := hstart
  have hlen : ¬ (x :: rest).length ≤ 0 := by simp
  have hrun := wrap_withItems pre s hlen kind
  rw [← hs.items, withItems_self, Nat.add_zero] at hrun
  rw [hrun]
  exact ⟨rfl, hs.depth⟩

theorem node_of_single {s : Parser} {xs : List Elem} (hs : Above pre d s xs) (hstart : Starts xs)
    (h : s.singleNode pre.length = true) :
    ∃ kind cs, xs = [.node kind cs] ∧ isOtherKind kind = true := by
  have hdrop := drop_above hs 0
  rw [Nat.add_zero, List.drop_zero] at hdrop
  unfold singleNode at h
  rw [hdrop] at h
  obtain ⟨x, rest, rfl, hx⟩ := hstart
  split at h
  · next kind cs heq =>
    cases heq
    refine ⟨kind, cs, rfl, ?_⟩
    cases kind <;> first | rfl | exact absurd rfl (hx cs)
  · cases h

section

variable {r r' : Rec} {m : Mode} {s t : Parser}

theorem parsePostfix_node (hr : RecLocal O d r r') (hs : Above pre d s [])
    (h : (parsePostfix r).run m s = some (some (), t)) :
    ∃ kind cs, Above pre d t [.node kind cs] ∧ isOtherKind kind = true := by
  have hprimary : Local pre pre d (parsePrimaryExpr r) (parsePrimaryExpr r') := inferInstance
  have hopens : Opens pre pre d (parsePrimaryExpr r) (parsePrimaryExpr r') := inferInstance
  unfold parsePostfix at h
  rw [checkpoint_run, hs.items, List.append_nil] at h
  obtain ⟨kind, u, hu, h⟩ := bind_some h
  obtain ⟨_, v, hv, h⟩ := bind_some h
  obtain ⟨kind', w, hw, h⟩ := bind_some h
  obtain ⟨single, w', hask, h⟩ := bind_some h
  cases hask
  obtain ⟨-, -, xs, hxs, -, -, -⟩ := hprimary.out hs hu
  have hstart : Starts xs := hopens.out hs hu hxs
  have hpolicy : Local pre pre d (parseOptPolicy kind) (parseOptPolicy kind) := inferInstance
  obtain ⟨-, -, ys, hys, -, hstart', -⟩ := hpolicy.out hxs hv
  have hloop : Local pre pre d (loopOn kind (postfixGroup r (pre.length + 0)))
      (loopOn kind (postfixGroup r' (pre.length + 0))) := inferInstance
  obtain ⟨-, -, zs, hzs, -, hstart'', -⟩ := hloop.out hys hw
  have hnode : Starts zs := hstart'' (hstart' hstart)
  cases hsingle : w.singleNode pre.length with
  | true =>
    simp only [hsingle, if_true] at h
    cases h
    obtain ⟨k, cs, rfl, hk⟩ := node_of_single hzs hnode hsingle
    exact ⟨k, cs, hzs, hk⟩
  | false =>
    simp only [hsingle, Bool.false_eq_true, if_false] at h
    cases h
    refine ⟨kind', zs, node_of_wrap hzs hnode, ?_⟩
    exact loopRun_result (fun a ha => postfixGroup_other r ha)
      ((parsePrimaryExpr_other r).out hu) hw

/-- A prefix operator and its operand. -/
theorem prefix_node (hr : RecLocal O d r r') {f : TokenKind → Bool} (hf : f .eof = false)
    (herr : f .error = false) (hs : Above pre d s []) (hk : f s.current.kind = true)
    (h : (do
      r.unary
      wrap pre.length .unaryExpr).run m s.advance = some (some (), t)) :
    ∃ cs, Above pre d t [.node .unaryExpr cs] := by
  have hunary : Local pre pre d r.unary r'.unary := inferInstance
  obtain ⟨new, hadv⟩ := advance_appends s
  have hnew := hadv.above hs
  have hstart : Starts new := by
    refine starts_advance hs ?_ ?_ hnew
    · intro he
      rw [he, hf] at hk
      cases hk
    · intro he
      rw [he, herr] at hk
      cases hk
  obtain ⟨_, v, hv, h⟩ := bind_some h
  cases h
  obtain ⟨-, -, ys, hys, -, hstart', -⟩ := hunary.out hnew hv
  exact ⟨ys, node_of_wrap hys (hstart' hstart)⟩

/-- An operand is one node. -/
theorem parseUnaryExpr_node (hr : RecLocal O d r r') (hs : Above pre d s [])
    (h : (parseUnaryExpr r).run m s = some (some (), t)) :
    ∃ e, IsOperand e ∧ Above pre d t [e] := by
  have hlocal : Local pre pre d (parseUnaryExpr r) (parseUnaryExpr r') := inferInstance
  obtain ⟨ys, hys, hgrow, -⟩ := hlocal.fresh hs h
  have hnode : ∃ kind cs, Above pre d t [.node kind cs] ∧ isOtherKind kind = true := by
    unfold parseUnaryExpr at h
    rw [checkpoint_run, hs.items, List.append_nil] at h
    obtain ⟨b, u, hu, h⟩ := bind_some h
    cases hmove : (s.current.kind == .move || s.current.kind == .copy) with
    | true =>
      rw [matchIf_true hmove] at hu
      cases hu
      obtain ⟨cs, hcs⟩ := prefix_node hr (f := fun k => k == .move || k == .copy) rfl rfl hs hmove h
      exact ⟨_, cs, hcs, rfl⟩
    | false =>
      rw [matchIf_false hmove] at hu
      cases hu
      obtain ⟨b, u, hu, h⟩ := bind_some h
      cases hminus : (s.current.kind == .minus || s.current.kind == .bang) with
      | true =>
        rw [matchIf_true hminus] at hu
        cases hu
        obtain ⟨cs, hcs⟩ := prefix_node hr (f := fun k => k == .minus || k == .bang) rfl rfl hs
          hminus h
        exact ⟨_, cs, hcs, rfl⟩
      | false =>
        rw [matchIf_false hminus] at hu
        cases hu
        exact parsePostfix_node hr hs h
  obtain ⟨kind, cs, hcs, hk⟩ := hnode
  obtain rfl := hys.cancel hcs
  refine ⟨_, ⟨?_, kind, cs, rfl, hk⟩, hcs⟩
  have hclimb := hgrow.climbed rfl
  simpa [climbedAll] using hclimb

/-- How `parse_expression` ends that began at `s`. -/
def ExprEnd (O : Operands) (m : Mode) (pre : List Elem) (d : Option Int) (r : Rec) (s t : Parser)
    (ys : List Elem) : Option Unit → Prop
  | some () => ∃ T u, ys = [treeElem T] ∧ Grammatical T ∧
      (parseUnaryExpr r).run m s = some (some (), u) ∧ Above pre d u [T.first] ∧
      Links O m u.bare T.links t.bare ∧ bindsAt 1 t.current.kind = false
  | none => (∃ u, (parseUnaryExpr r).run m s = some (none, u)) ∨
      ∃ e u ls v, (parseUnaryExpr r).run m s = some (some (), u) ∧ Above pre d u [e] ∧
        Links O m u.bare ls v ∧ Broken O m v

theorem parseExpression_spec (pre' : List Elem) (hr : RecLocal O d r r') {o : Option Unit}
    (hs : Above pre d s []) (h : (parseExpression r).run m s = some (o, t)) :
    ∃ ys, Above pre d t ys ∧ Grows s [] t ys ∧
      (parseExpression r').run m (s.withItems pre') = some (o, t.withItems (pre' ++ ys)) ∧
      ExprEnd O m pre d r s t ys o := by
  have hlocal : Local pre pre' d (parseUnaryExpr r) (parseUnaryExpr r') := inferInstance
  unfold parseExpression at h ⊢
  rw [checkpoint_run, bind_run, hs.items, List.append_nil] at h
  rw [checkpoint_run, bind_run, withItems_items]
  cases hunary : (parseUnaryExpr r).run m s with
  | none =>
    rw [hunary] at h
    cases h
  | some res =>
    obtain ⟨o', u⟩ := res
    obtain ⟨ys, hys, hgrow, hu'⟩ := hlocal.fresh hs hunary
    rw [hunary] at h
    rw [hu']
    cases o' with
    | none =>
      cases h
      exact ⟨ys, hys, hgrow, rfl, Or.inl ⟨_, hunary⟩⟩
    | some _ =>
      obtain ⟨e, he, hu⟩ := parseUnaryExpr_node hr hs hunary
      obtain rfl := hys.cancel hu
      obtain ⟨zs, hzs, hgrow', hrhs, hend⟩ :=
        parseBinaryRhs_climbs hr pre pre' 1 (T := .leaf e) hu ⟨he, trivial⟩ (fun _ => nofun) h
      have hleaf : treeElem (.leaf e) = e := by rw [treeElem]
      rw [hleaf] at hgrow' hrhs
      refine ⟨zs, hzs, hgrow.trans hgrow', hrhs, ?_⟩
      cases o with
      | none =>
        obtain ⟨ls, v, hlinks, hbroken⟩ := hend
        exact Or.inr ⟨e, u, ls, v, hunary, hu, hlinks, hbroken⟩
      | some _ =>
        obtain ⟨T, ls, rfl, hT, hfirst, hls, hlinks, hstop, -⟩ := hend
        have hfirst' : T.first = e := hfirst
        have hls' : T.links = ls := hls
        refine ⟨T, u, rfl, hT, hunary, by rw [hfirst']; exact hu, ?_, hstop⟩
        rw [hls']
        exact hlinks

end

instance (r r' : Rec) [hr : RecLocal O d r r'] :
    Local pre pre' d (parseExpression r) (parseExpression r') := by
  constructor
  intro m s o t xs hs h
  have hs' : Above (pre ++ xs) d s [] := above_append.mpr (by simpa using hs)
  obtain ⟨ys, hys, hgrow, hrun, -⟩ := parseExpression_spec (pre' ++ xs) hr hs' h
  refine ⟨_, hrun, xs ++ ys, above_append.mp hys, ?_, fun hstart => hstart.append ys,
    by rw [List.append_assoc]⟩
  simpa using hgrow.frame xs

/-! ## Statements -/

instance (kind : SyntaxNodeKind) (message : String) :
    Local pre pre' d (jumpStmt kind message) (jumpStmt kind message) := by
  unfold jumpStmt
  infer_instance

instance : Local pre pre' d armPattern armPattern := by
  unfold armPattern
  infer_instance

instance (r : Rec) : Returns (parseSimpleStatement r) isOtherKind := by
  unfold parseSimpleStatement simpleTail parseBindingTail
  infer_instance

instance (r : Rec) : Returns (statementForm r) isOtherKind := by
  have hsimple : Returns (do
      let kind ← parseSimpleStatement r
      closing .semi "Expected ';' after statement"
      return kind) isOtherKind := by
    apply Returns.bound isOtherKind inferInstance
    intro kind hk
    have hkind : IsTrue (isOtherKind kind) := ⟨hk⟩
    infer_instance
  unfold statementForm jumpStmt eachFieldStmt returnStmt matchStmt parenBindStmt ifStmt forStmt
  infer_instance

section

variable (r r' : Rec) [RecLocal O d r r']

instance : Local pre pre' d (bindingValue r) (bindingValue r') := by
  unfold bindingValue
  infer_instance

instance : Local pre pre' d (parseBindingTail r) (parseBindingTail r') := by
  have hblind : Blind fun s => s.current.kind == .colon || s.current.kind == .eq ||
      s.current.kind == .eof := ⟨fun _ _ => rfl⟩
  unfold parseBindingTail
  infer_instance

instance : Local pre pre' d (outArg r) (outArg r') := by
  unfold outArg
  infer_instance

instance (k : Nat) :
    Local pre pre' d (simpleTail r (pre.length + k)) (simpleTail r' (pre'.length + k)) := by
  unfold simpleTail
  infer_instance

instance : Local pre pre' d (parseSimpleStatement r) (parseSimpleStatement r') := by
  unfold parseSimpleStatement
  infer_instance

instance : Local pre pre' d (eachFieldStmt r) (eachFieldStmt r') := by
  unfold eachFieldStmt
  infer_instance

instance : Local pre pre' d (returnStmt r) (returnStmt r') := by
  unfold returnStmt
  infer_instance

instance : Local pre pre' d (matchStmt r) (matchStmt r') := by
  unfold matchStmt
  infer_instance

instance (k : Nat) : Local pre pre' d (bindTarget r k) (bindTarget r' k) := by
  unfold bindTarget
  infer_instance

instance : Local pre pre' d (parenBindStmt r) (parenBindStmt r') := by
  unfold parenBindStmt
  infer_instance

instance (message : String) : Local pre pre' d (branch r message) (branch r' message) := by
  unfold branch
  infer_instance

instance : Local pre pre' d (ifStmt r) (ifStmt r') := by
  unfold ifStmt
  infer_instance

instance : Local pre pre' d (forPart r) (forPart r') := by
  have hwrap : ∀ k, Local pre pre' d
      (do
        let kind ← parseSimpleStatement r
        wrap (pre.length + k) kind)
      (do
        let kind ← parseSimpleStatement r'
        wrap (pre'.length + k) kind) := by
    intro k
    apply Local.bind_of inferInstance
    intro m s kind t hrun
    have hreturns : Returns (parseSimpleStatement r) isOtherKind := inferInstance
    have hkind : IsTrue (isOtherKind kind) := ⟨hreturns.out hrun⟩
    infer_instance
  unfold forPart
  infer_instance

instance : Local pre pre' d (forHeader r) (forHeader r') := by
  unfold forHeader
  infer_instance

instance : Local pre pre' d (forStmt r) (forStmt r') := by
  unfold forStmt
  infer_instance

instance : Local pre pre' d (statementForm r) (statementForm r') := by
  unfold statementForm
  infer_instance

end

/-! ## Declarations -/

instance : Local pre pre' d requireDeclTerminator requireDeclTerminator := by
  unfold requireDeclTerminator
  infer_instance

instance : Local pre pre' d parseLinkRegion parseLinkRegion := by
  unfold parseLinkRegion
  infer_instance

instance : Local pre pre' d parseUseDecl parseUseDecl := by
  unfold parseUseDecl
  infer_instance

instance : Local pre pre' d parseDefaultDecorator parseDefaultDecorator := by
  unfold parseDefaultDecorator
  infer_instance

instance : Local pre pre' d parseImplementsDecorator parseImplementsDecorator := by
  unfold parseImplementsDecorator
  infer_instance

instance (k : TokenKind) (m1 m2 m3 : String) (hk : (TokenKind.eof == k) = false) :
    Local pre pre' d (decoratorArg k m1 m2 m3 hk) (decoratorArg k m1 m2 m3 hk) := by
  unfold decoratorArg
  infer_instance

instance : Local pre pre' d parseDecorator parseDecorator := by
  unfold parseDecorator
  infer_instance

instance : Local pre pre' d parseDecorators parseDecorators := by
  unfold parseDecorators
  infer_instance

/-- A node kind other than `SN_BINARY_EXPR`, or none. -/
@[reducible]
def isOtherOption : Option SyntaxNodeKind → Bool
  | none => true
  | some kind => isOtherKind kind

theorem parseDecorators_other : Returns parseDecorators isOtherOption := by
  have hdecorator : Returns parseDecorator isOtherOption := by
    unfold parseDecorator
    infer_instance
  constructor
  intro m s a t h
  refine loopRun_result (g := isOtherOption) (fun b _ => ?_) rfl h
  have hround : Returns (do
      let directive ← parseDecorator
      return (directive.isNone, directive)) fun r : Bool × Option SyntaxNodeKind =>
        isOtherOption r.2 := by
    apply Returns.bound isOtherOption hdecorator
    intro directive hd
    have : IsTrue (isOtherOption directive) := ⟨hd⟩
    infer_instance
  infer_instance

instance (decl decl' : P SyntaxNodeKind) [Local pre pre' d decl decl']
    [hk : Returns decl isOtherKind] : Local pre pre' d (declNode decl) (declNode decl') := by
  have hwrap : ∀ k, Local pre pre' d
      (do
        let kind ← recover decl
        wrap (pre.length + k) (kind.getD .error))
      (do
        let kind ← recover decl'
        wrap (pre'.length + k) (kind.getD .error)) := by
    intro k
    apply Local.bind_of inferInstance
    intro m s kind t hrun
    have hkind : IsTrue (isOtherKind (kind.getD .error)) := by
      simp only [recover] at hrun
      split at hrun
      · cases hrun
      · cases hrun
        exact ⟨rfl⟩
      · next a u hu =>
        cases hrun
        exact ⟨hk.out hu⟩
    infer_instance
  unfold declNode
  infer_instance

section

variable (r r' : Rec) [hr : RecLocal O d r r']

instance (k : Nat) :
    Local pre pre' d (poolShape r (pre.length + k)) (poolShape r' (pre'.length + k)) := by
  unfold poolShape
  infer_instance

instance : Local pre pre' d (poolInit r) (poolInit r') := by
  unfold poolInit
  infer_instance

instance : Local pre pre' d (parsePoolDecl r) (parsePoolDecl r') := by
  unfold parsePoolDecl
  infer_instance

instance : Local pre pre' d (parseBindingDecl r) (parseBindingDecl r') := by
  unfold parseBindingDecl
  infer_instance

instance : Local pre pre' d (parseStaticDecl r) (parseStaticDecl r') := by
  unfold parseStaticDecl
  infer_instance

instance (isForeign : Bool) :
    Local pre pre' d (parseRegion r isForeign) (parseRegion r' isForeign) := by
  have hkind : Returns r.decl isOtherKind := hr.declKind
  unfold parseRegion
  infer_instance

instance : Local pre pre' d (parseRunRegion r) (parseRunRegion r') := by
  unfold parseRunRegion
  infer_instance

instance : Local pre pre' d (parseDeclForm r) (parseDeclForm r') := by
  have hlast : ∀ o : Option SyntaxNodeKind, Local pre pre' d
      (match o with
        | some kind => pure kind
        | none => fail "Expected declaration")
      (match o with
        | some kind => pure kind
        | none => fail "Expected declaration") := by
    intro o
    cases o <;> infer_instance
  unfold parseDeclForm
  infer_instance

instance : Local pre pre' d (parseDecl r) (parseDecl r') := by
  have hform : ∀ o : Option SyntaxNodeKind, Local pre pre' d
      (match o with
        | some kind => pure kind
        | none => parseDeclForm r)
      (match o with
        | some kind => pure kind
        | none => parseDeclForm r') := by
    intro o
    cases o <;> infer_instance
  unfold parseDecl
  infer_instance

omit hr in
theorem parseStaticDecl_other : Returns (parseStaticDecl r) isOtherOption := by
  have hmap : ∀ p : P SyntaxNodeKind, Returns p isOtherKind →
      Returns (some <$> p) isOtherOption := by
    intro p hp
    apply Returns.bound isOtherKind hp
    intro kind hk
    have : IsTrue (isOtherOption (some kind)) := ⟨hk⟩
    exact inferInstanceAs (Returns (pure (some kind)) isOtherOption)
  have hpool : Returns (some <$> parsePoolDecl r) isOtherOption := by
    apply hmap
    unfold parsePoolDecl
    infer_instance
  have hbinding : Returns (some <$> parseBindingDecl r) isOtherOption := by
    apply hmap
    unfold parseBindingDecl
    infer_instance
  unfold parseStaticDecl
  infer_instance

omit hr in
theorem parseDecl_other : Returns (parseDecl r) isOtherKind := by
  have hlast : Returns (do
      match ← orReport (parseStaticDecl r) "Expected declaration" with
      | some kind => return kind
      | none => fail "Expected declaration") isOtherKind := by
    have hstatic := parseStaticDecl_other r
    apply Returns.bound isOtherOption (inferInstanceAs (Returns (onFail _ _ _ _) _))
    intro o ho
    cases o with
    | none => infer_instance
    | some kind =>
      have : IsTrue (isOtherKind kind) := ⟨ho⟩
      infer_instance
  apply Returns.bound isOtherOption parseDecorators_other
  intro o ho
  cases o with
  | some kind =>
    have : IsTrue (isOtherKind kind) := ⟨ho⟩
    infer_instance
  | none =>
    show Returns (parseDeclForm r) isOtherKind
    unfold parseDeclForm parseUseDecl parseRegion parseLinkRegion parseRunRegion
    infer_instance

end

end Arche.Syntax
