import Arche.Syntax.LocalForms
import Arche.Syntax.Termination

/-!
# Precedence climbing

`parse_expression` reads the longest chain of operands and binary operators, and makes the one
ordered operator tree of it.
-/

namespace Arche.Syntax

open P Arche.Syntax.Parser MoveLemmas Arche.Lib.Precedence

/-! ## Any call depth -/

/-- `parse_unary_expr`, with a call depth that suffices. -/
def UnaryRuns (m : Mode) (s : Parser) (o : Option Unit) (t : Parser) : Prop :=
  ∃ n, (knot n).unary.run m s = some (o, t)

/-- `parse_expression`, with a call depth that suffices. -/
def ExprRuns (m : Mode) (s : Parser) (o : Option Unit) (t : Parser) : Prop :=
  ∃ n, (knot n).expr.run m s = some (o, t)

/-- Operands are what `parse_unary_expr` reads. -/
def operands : Operands where
  reads m s e t := ∃ u, UnaryRuns m s (some ()) u ∧ u.items = [e] ∧ t = u.bare
  fails m s := ∃ u, UnaryRuns m s none u

theorem recLocal_stuck (O : Operands) (d : Option Int) (r' : Rec) : RecLocal O d (knot 0) r' where
  expr _ _ := ⟨fun _ h => by cases h⟩
  type _ _ := ⟨fun _ h => by cases h⟩
  unary _ _ := ⟨fun _ h => by cases h⟩
  stmt _ _ := ⟨fun _ h => by cases h⟩
  decl _ _ := ⟨fun _ h => by cases h⟩
  typeKind := ⟨fun h => by cases h⟩
  declKind := ⟨fun h => by cases h⟩
  operand _ h := by cases h
  operandFails _ h := by cases h
  binaryRhs _ _ _ := by
    intro m s o t T _ _ _ h
    cases h

/-- More call depth changes nothing, and neither do the items below. -/
instance recLocal_knot (n k : Nat) : RecLocal operands none (knot n) (knot (n + k)) := by
  induction n with
  | zero => exact recLocal_stuck _ _ _
  | succ n ih =>
    rw [Nat.succ_add]
    have hform : ∀ pre pre', Local pre pre' none (parseStatement (knot n)).p
        (parseStatement (knot (n + k))).p := by
      intro pre pre'
      exact local_statement nofun
        (inferInstanceAs (Local pre pre' none (statementForm (knot n))
          (statementForm (knot (n + k)))))
        inferInstance
    exact
      { expr := fun pre pre' =>
          inferInstanceAs (Local pre pre' none (parseExpression (knot n))
            (parseExpression (knot (n + k))))
        type := fun pre pre' =>
          inferInstanceAs (Local pre pre' none (parseTypeForm (knot n))
            (parseTypeForm (knot (n + k))))
        unary := fun pre pre' =>
          inferInstanceAs (Local pre pre' none (parseUnaryExpr (knot n))
            (parseUnaryExpr (knot (n + k))))
        stmt := hform
        decl := fun pre pre' =>
          inferInstanceAs (Local pre pre' none (parseDecl (knot n)) (parseDecl (knot (n + k))))
        typeKind := parseTypeForm_other (knot n)
        declKind := parseDecl_other (knot n)
        operand := by
          intro pre m s t hs h
          obtain ⟨e, he, ht⟩ := parseUnaryExpr_node ih hs h
          have hlocal : Local pre [] none (parseUnaryExpr (knot n))
              (parseUnaryExpr (knot (n + k))) := inferInstance
          obtain ⟨ys, hys, -, hrun⟩ := hlocal.fresh hs h
          obtain rfl := hys.cancel ht
          exact ⟨e, he, ht, t.withItems [e], ⟨n + k + 1, hrun⟩, rfl, rfl⟩
        operandFails := by
          intro pre m s t hs h
          have hlocal : Local pre [] none (parseUnaryExpr (knot n))
              (parseUnaryExpr (knot (n + k))) := inferInstance
          obtain ⟨ys, -, -, hrun⟩ := hlocal.fresh hs h
          exact ⟨_, n + k + 1, hrun⟩
        binaryRhs := parseBinaryRhs_climbs ih }

theorem UnaryRuns.unique {m : Mode} {s t t' : Parser} {o o' : Option Unit} (h : UnaryRuns m s o t)
    (h' : UnaryRuns m s o' t') : o = o' ∧ t = t' := by
  obtain ⟨n, hn⟩ := h
  obtain ⟨k, hk⟩ := h'
  have hn' := (((recLocal_knot n k).unary [] []).same nofun hn).1
  have hk' := (((recLocal_knot k n).unary [] []).same nofun hk).1
  rw [Nat.add_comm, hn'] at hk'
  cases hk'
  exact ⟨rfl, rfl⟩

theorem ExprRuns.unique {m : Mode} {s t t' : Parser} {o o' : Option Unit} (h : ExprRuns m s o t)
    (h' : ExprRuns m s o' t') : o = o' ∧ t = t' := by
  obtain ⟨n, hn⟩ := h
  obtain ⟨k, hk⟩ := h'
  have hn' := (((recLocal_knot n k).expr [] []).same nofun hn).1
  have hk' := (((recLocal_knot k n).expr [] []).same nofun hk).1
  rw [Nat.add_comm, hn'] at hk'
  cases hk'
  exact ⟨rfl, rfl⟩

/-- `parse_expression` returns. -/
theorem exprRuns_total (m : Mode) (s : Parser) : ∃ o t, ExprRuns m s o t := by
  obtain ⟨o, t, h⟩ := (recTotal_knot (s.unread + 1)).expr.out m s (Nat.lt_succ_self _)
  exact ⟨o, t, _, h⟩

/-! ## The longest chain -/

variable {m : Mode} {s t : Parser}

theorem reads_unique {e e' : Elem} {u v : Parser} (h : operands.reads m s e u)
    (h' : operands.reads m s e' v) : e = e' ∧ u = v := by
  obtain ⟨w, hw, hitems, rfl⟩ := h
  obtain ⟨w', hw', hitems', rfl⟩ := h'
  obtain ⟨-, rfl⟩ := hw.unique hw'
  rw [hitems] at hitems'
  cases hitems'
  exact ⟨rfl, rfl⟩

theorem not_fails_of_reads {e : Elem} {u : Parser} (h : operands.reads m s e u) :
    ¬ operands.fails m s := by
  rintro ⟨w, hw⟩
  obtain ⟨w', hw', -, -⟩ := h
  cases (hw.unique hw').1

/-- Of two chains from one place, one goes on where the other one ends. -/
theorem Links.compare {u : Parser} {ls ls' : List (Link × Elem)} (h : Links operands m s ls t)
    (h' : Links operands m s ls' u) :
    (∃ ms, ls' = ls ++ ms ∧ Links operands m t ms u) ∨
      ∃ ms, ls = ls' ++ ms ∧ Links operands m u ms t := by
  induction h generalizing ls' u with
  | nil s => exact Or.inl ⟨ls', rfl, h'⟩
  | cons hop hread hpol hrest ih =>
    cases h' with
    | nil => exact Or.inr ⟨_, rfl, .cons hop hread hpol hrest⟩
    | cons hop' hread' hpol' hrest' =>
      obtain ⟨rfl, rfl⟩ := reads_unique hread hread'
      rw [hpol] at hpol'
      cases hpol'
      rcases ih hrest' with ⟨ms, rfl, hms⟩ | ⟨ms, rfl, hms⟩
      · exact Or.inl ⟨ms, rfl, hms⟩
      · exact Or.inr ⟨ms, rfl, hms⟩

/-- No chain goes on at a token that is no binary operator. -/
theorem Links.ended {u : Parser} {ls : List (Link × Elem)} (h : Links operands m t ls u)
    (ht : bindsAt 1 t.current.kind = false) : ls = [] ∧ u = t := by
  cases h with
  | nil => exact ⟨rfl, rfl⟩
  | cons hop _ _ _ =>
    rw [ht] at hop
    cases hop

/-- A chain that breaks off is no part of one that ends. -/
theorem Links.not_broken {u : Parser} {ls ls' : List (Link × Elem)} (h : Links operands m s ls t)
    (ht : bindsAt 1 t.current.kind = false) (h' : Links operands m s ls' u) :
    ¬ Broken operands m u := by
  rintro ⟨hbinds, hbroken⟩
  rcases h.compare h' with ⟨ms, rfl, hms⟩ | ⟨ms, rfl, hms⟩
  · obtain ⟨rfl, rfl⟩ := hms.ended ht
    rw [ht] at hbinds
    cases hbinds
  · cases hms with
    | nil =>
      rw [ht] at hbinds
      cases hbinds
    | cons _ hread hpol _ =>
      rcases hbroken with hfails | ⟨e, v, w, hread', hpol'⟩
      · exact not_fails_of_reads hread hfails
      · obtain ⟨rfl, rfl⟩ := reads_unique hread hread'
        rw [hpol] at hpol'
        cases hpol'

/-- Operands joined by binary operators: a first operand `e` and the links `ls`, from `s` to `u`. -/
def OperandChain (m : Mode) (s : Parser) (e : Elem) (ls : List (Link × Elem)) (u : Parser) : Prop :=
  ∃ v, operands.reads m s.bare e v ∧ Links operands m v ls u

theorem OperandChain.starts {e e' : Elem} {ls ls' : List (Link × Elem)} {u : Parser}
    (h : OperandChain m s e ls t) (ht : bindsAt 1 t.current.kind = false)
    (h' : OperandChain m s e' ls' u) : e' = e ∧ ls' <+: ls := by
  obtain ⟨v, hread, hlinks⟩ := h
  obtain ⟨v', hread', hlinks'⟩ := h'
  obtain ⟨rfl, rfl⟩ := reads_unique hread hread'
  refine ⟨rfl, ?_⟩
  rcases hlinks.compare hlinks' with ⟨ms, rfl, hms⟩ | ⟨ms, rfl, -⟩
  · obtain ⟨rfl, -⟩ := hms.ended ht
    simp
  · exact List.prefix_append ls' ms

/-- What `parse_expression` does at `s`, in terms of chains. -/
theorem exprRuns_spec {o : Option Unit} (h : ExprRuns m s o t) :
    ∃ ys, t.items = s.items ++ ys ∧ Grows s [] t ys ∧
      match o with
      | some () => ∃ T, ys = [treeElem T] ∧ Grammatical T ∧
          OperandChain m s T.first T.links t.bare ∧ bindsAt 1 t.current.kind = false
      | none => ∀ e ls u, OperandChain m s e ls u → bindsAt 1 u.current.kind = true := by
  obtain ⟨n, hn⟩ := h
  have hn' := (((recLocal_knot n 1).expr [] []).same nofun hn).1
  have hs : Above s.items none s [] := ⟨by simp, nofun⟩
  obtain ⟨ys, hys, hgrow, -, hend⟩ := parseExpression_spec [] (recLocal_knot n 0) hs hn'
  have hlocal : Local s.items [] none (parseUnaryExpr (knot n)) (parseUnaryExpr (knot (n + 0))) :=
    inferInstance
  refine ⟨ys, hys.items, hgrow, ?_⟩
  have hread : ∀ {e u}, (parseUnaryExpr (knot n)).run m s = some (some (), u) →
      Above s.items none u [e] → operands.reads m s.bare e u.bare := by
    intro e u hrun hu
    obtain ⟨zs, hzs, -, hrun'⟩ := hlocal.fresh hs hrun
    obtain rfl := hzs.cancel hu
    exact ⟨u.withItems [e], ⟨n + 1, hrun'⟩, rfl, rfl⟩
  cases o with
  | some _ =>
    obtain ⟨T, u, rfl, hT, hrun, hu, hlinks, hstop⟩ := hend
    exact ⟨T, rfl, hT, ⟨u.bare, hread hrun hu, hlinks⟩, hstop⟩
  | none =>
    rintro e ls u ⟨v, hv, hlinks⟩
    cases hstop : bindsAt 1 u.current.kind with
    | true => rfl
    | false =>
      rcases hend with ⟨w, hrun⟩ | ⟨e', w, ls', x, hrun, hw, hlinks', hbroken⟩
      · obtain ⟨zs, -, -, hrun'⟩ := hlocal.fresh hs hrun
        exact absurd ⟨_, n + 1, hrun'⟩ (not_fails_of_reads hv)
      · obtain ⟨rfl, rfl⟩ := reads_unique hv (hread hrun hw)
        exact absurd hbroken (hlinks.not_broken hstop hlinks')

/-- `parse_expression` returns, and it succeeds where the longest chain is not followed by one more
operator. It then appends one tree, which is read off that chain: its operands are in order, and no
other ordered tree has them and their operators. Its leaves are those of the tokens consumed, in
their order: an error token has none, and a loop cap may lose some. -/
theorem parseExpression_longest (m : Mode) (s : Parser) :
    (∃ o t, ExprRuns m s o t ∧ ∀ o' t', ExprRuns m s o' t' → o' = o ∧ t' = t) ∧
      ((∃ t, ExprRuns m s (some ()) t) ↔
        ∃ e ls u, OperandChain m s e ls u ∧ bindsAt 1 u.current.kind = false) ∧
      ∀ t, ExprRuns m s (some ()) t → ∃ T, t.items = s.items ++ [treeElem T] ∧
        OperandChain m s T.first T.links t.bare ∧
        (∀ e ls u, OperandChain m s e ls u → e = T.first ∧ ls <+: T.links) ∧
        Consumed 1000 s t (treeElem T).leaves ∧ (treeElem T).climbed = true ∧ Grammatical T ∧
        ∀ T', T'.first = T.first → T'.links = T.links → T'.Ordered Link.prec → T' = T := by
  refine ⟨?_, ⟨?_, ?_⟩, ?_⟩
  · obtain ⟨o, t, h⟩ := exprRuns_total m s
    exact ⟨o, t, h, fun o' t' h' => h'.unique h⟩
  · rintro ⟨t, h⟩
    obtain ⟨ys, -, -, T, -, -, hchain, hstop⟩ := exprRuns_spec h
    exact ⟨T.first, T.links, t.bare, hchain, hstop⟩
  · rintro ⟨e, ls, u, hchain, hstop⟩
    obtain ⟨o, t, h⟩ := exprRuns_total m s
    obtain ⟨ys, -, -, hend⟩ := exprRuns_spec h
    cases o with
    | some _ => exact ⟨t, h⟩
    | none =>
      have hgoes := hend e ls u hchain
      rw [hstop] at hgoes
      cases hgoes
  · intro t h
    obtain ⟨ys, hitems, hgrow, T, rfl, hT, hchain, hstop⟩ := exprRuns_spec h
    refine ⟨T, hitems, hchain, fun e ls u h' => hchain.starts hstop h', ?_, hT.climbed, hT,
      fun T' hfirst hlinks hord => hord.unique hT.ordered hfirst hlinks⟩
    obtain ⟨ls, hls, hcons⟩ := hgrow.leaves
    have hleaves : (treeElem T).leaves = ls := by simpa [leavesOf] using hls
    rw [hleaves]
    exact hcons

/-- The leaves are not all tokens consumed: in `system{$}` recovery goes past the error token. -/
theorem not_parseExpression_longest : ¬ ∀ m s t, ExprRuns m s (some ()) t →
    ∃ e ts, t.items = s.items ++ [e] ∧ s.pending = ts ++ t.pending ∧
      e.leaves = ts.map Token.leaf32 := by
  intro hall
  let s := Parser.create "system\x7b$\x7d".toList
  have hcounts : ((knot 8).expr.run .code s).map (fun r => (r.1, (leavesOf r.2.items).length,
      r.2.pending.length)) = some (some (), 3, 0) := by decide +kernel
  have hpending : s.pending.length = 4 := by decide +kernel
  have hitems : s.items = [] := by decide +kernel
  obtain ⟨⟨o, t⟩, hrun, hcount⟩ := Option.map_eq_some_iff.mp hcounts
  simp only [Prod.mk.injEq] at hcount
  obtain ⟨rfl, hleaves, hend⟩ := hcount
  obtain ⟨e, ts, hte, hsplit, hread⟩ := hall .code s t ⟨8, hrun⟩
  have hlen := congrArg List.length hsplit
  have hone : (leavesOf t.items).length = ts.length := by
    rw [hte, hitems]
    simp [leavesOf, hread]
  rw [List.length_append] at hlen
  omega

end Arche.Syntax
