import Mathlib.Data.List.Forall2
import Arche.Semantic.Moves

/-!
# What the walk over moves does promise

The walk is sound on the paths that stay with what it looked at once:

* `covered`: in the places it passes by (elements of array and tuple literals,
  bases of field chains, names under parentheses after `move`, arguments handed
  over by a call, stores through an element) there is nothing to find with the
  flags it has there;
* `Steady`: whenever a loop goes on past its body, no variable from outside the
  body was moved in the round.

`clean_of_steady` is the result: every such path of an accepted body is clean.
The proof carries `Below`, "moved on the path only if consumed in the walk",
through the rules of `Lib.Path`.
-/

namespace Arche.Semantic

open Arche.Lib

/-! ## The places the walk does not look at -/

/-- A name handed over to a place that takes variables with `p` is not consumed yet. -/
def fresh (p : Decl → Bool) (c : Ctx) (x : String) : Bool :=
  (c.vars.find x).all fun v => !p v.decl || !v.consumed

/-- `fresh` for each name, the ones before it handed over by `give`. -/
def freshAll (p : Decl → Bool) (give : Ctx → String → Ctx) (c : Ctx) : List String → Bool
  | [] => true
  | x :: xs => fresh p c x && freshAll p give (give c x) xs

mutual

/-- Where the walk from `c` passes by a place of the expression, it would report nothing there
and consume nothing. -/
def covered (c : Ctx) : Expr → Bool
  | .literal | .hole | .name _ => true
  | .arrayLit es | .tupleLit es => analyzeExprs c es == c && coveredAll c es
  | .paren e | .fieldOf e | .collective e => covered c e
  | .field x => !c.vars.isConsumed x
  | .index b ix => covered c b && coveredAll (analyzeExpr c b) ix
  | .binary op l r => covered c l && (op == .fmap || covered (analyzeExpr c l) r)
  | .unary op e => covered c e && (op != .move || e.parenName? == e.bareName?)
  | .builtin args => coveredAll c args
  | .ifS a b d =>
    covered c a && covered (analyzeExpr c a) b &&
      covered (analyzeExpr (analyzeExpr c a) b) d
  | .whenS a b => covered c a && covered (analyzeExpr c a) b
  | .call f own args =>
    let c₁ := analyzeExprs (c.checkUse f) args
    let c₂ := if f == "insert" then (insertNames args).foldl Ctx.consumeOpaque (analyzeFirst c₁ args)
      else c₁
    coveredAll (c.checkUse f) args &&
      (f != "insert" || freshAll isOpaque Ctx.consumeOpaque (analyzeFirst c₁ args)
        (insertNames args)) &&
      freshAll Decl.moveOnly Ctx.implicitMove c₂ (ownNames own args)
  | .entity vals => coveredAll c vals

def coveredAll (c : Ctx) : List Expr → Bool
  | [] => true
  | e :: es => covered c e && coveredAll (analyzeExpr c e) es

end

def coveredOpt (c : Ctx) (e : Option Expr) : Bool := e.all (covered c)

def coveredReturn (c : Ctx) : List Expr → Bool
  | [] => true
  | e :: es =>
    covered c e &&
      coveredReturn (e.bareName?.elim (analyzeExpr c e) (analyzeExpr c e).consumeOpaque) es

mutual

/-- The same for a statement. The walk meets the increment of a `for` before the body, so the
increment declares nothing. -/
def coveredStmt (c : Ctx) : Stmt → Bool
  | .bind _ value => coveredOpt c value
  | .assign target value =>
    covered c target && covered (analyzeExpr c target) value &&
      (target.bareName?.isSome || target.root?.all fun x =>
        !(moveValue (analyzeExpr (analyzeExpr c target) value) value).vars.isConsumed x)
  | .forC init cond incr body =>
    let c₁ := analyzeStmts c init
    let c₂ := analyzeOpt c₁ cond
    let c₃ := analyzeStmts c₂ incr
    coveredStmts c init && coveredOpt c₁ cond && coveredStmts c₂ incr &&
      c₃.vars.length == c₂.vars.length && coveredStmts c₃ body
  | .forever body | .block body => coveredStmts c body
  | .ite cond thn els =>
    let c₀ := analyzeExpr c cond
    let c₁ := (analyzeStmts c₀ thn).popScope c₀.vars.length
    covered c cond && coveredStmts c₀ thn && coveredStmts (c₁.restoreOpaque c₀.vars) els
  | .run | .brk | .cont => true
  | .expr e => covered c e
  | .fan binds body => coveredStmts (binds.foldl Ctx.declare c) body
  | .ret es => coveredReturn c es
  | .multiBind _ value => coveredOpt c value
  | .matchOn scrut arms => coveredOpt c scrut && coveredArms (analyzeOpt c scrut) arms

def coveredStmts (c : Ctx) : List Stmt → Bool
  | [] => true
  | s :: ss => coveredStmt c s && coveredStmts (analyzeStmt c s) ss

def coveredArms (c : Ctx) : List (List Stmt) → Bool
  | [] => true
  | arm :: arms =>
    coveredStmts c arm && coveredArms ((analyzeStmts c arm).popScope c.vars.length) arms

end

/-- The condition on a body. -/
def Covered (outer : Vars) (params : List Decl) (body : List Stmt) : Prop :=
  coveredStmts ⟨outer.declareAll params, []⟩ body = true

/-- The condition on a path: a loop that goes on past its body goes on in the state it was in. -/
def Steady (t : List Event) : Prop := ∀ before now, .again before now ∈ t → now = before

/-! ## Flags of a path below flags of the walk -/

/-- The same variable, and moved only if consumed. -/
def Below (v w : Var) : Prop := v.decl = w.decl ∧ (v.consumed = true → w.consumed = true)

/-- `Below`, variable by variable. -/
abbrev Sim (r a : Vars) : Prop := List.Forall₂ Below r a

theorem Below.refl (v : Var) : Below v v := ⟨rfl, id⟩

theorem Below.trans {u v w : Var} (h₁ : Below u v) (h₂ : Below v w) : Below u w :=
  ⟨h₁.1.trans h₂.1, h₂.2 ∘ h₁.2⟩

theorem Below.consumed (v : Var) : Below v { v with consumed := true } := ⟨rfl, fun _ => rfl⟩

namespace Sim

theorem refl : ∀ r : Vars, Sim r r
  | [] => .nil
  | v :: r => .cons (.refl v) (refl r)

theorem trans {r a b : Vars} (h₁ : Sim r a) (h₂ : Sim a b) : Sim r b := by
  induction h₁ generalizing b with
  | nil => exact h₂
  | cons hv _ ih =>
    cases h₂ with
    | cons hw h₂ => exact .cons (hv.trans hw) (ih h₂)

/-- Both lists find the same variable. -/
theorem find {r a : Vars} (x : String) (h : Sim r a) :
    (r.find x = none ∧ a.find x = none) ∨
      ∃ v w, r.find x = some v ∧ a.find x = some w ∧ Below v w := by
  induction h with
  | nil => exact .inl ⟨rfl, rfl⟩
  | @cons v w r a hv _ ih =>
    simp only [Vars.find, hv.1]
    split
    · exact .inr ⟨v, w, rfl, rfl, hv⟩
    · exact ih

theorem consume {r a : Vars} (x : String) (h : Sim r a) : Sim (r.consume x) (a.consume x) := by
  induction h with
  | nil => exact .nil
  | @cons v w r a hv h ih =>
    simp only [Vars.consume, hv.1]
    split
    · exact .cons (.refl _) h
    · exact .cons hv ih

theorem le_consume (x : String) : ∀ a : Vars, Sim a (a.consume x)
  | [] => .nil
  | v :: a => by
    simp only [Vars.consume]
    split
    · exact .cons (.consumed v) (refl a)
    · exact .cons (.refl v) (le_consume x a)

theorem cut {r a : Vars} (n : Nat) (h : Sim r a) : Sim (r.cut n) (a.cut n) := by
  unfold Vars.cut
  rw [h.length_eq]
  exact List.forall₂_drop _ h

theorem declare {r a : Vars} (d : Decl) (h : Sim r a) : Sim (r.declare d) (a.declare d) :=
  .cons (.refl _) h

theorem declareAll {r a : Vars} (ds : List Decl) (h : Sim r a) :
    Sim (r.declareAll ds) (a.declareAll ds) := by
  induction ds generalizing r a with
  | nil => exact h
  | cons d ds ih => exact ih (h.declare d)

/-- What the walk does not find consumed was not moved. -/
theorem not_moved {r a : Vars} {x : String} {v : Var} (h : Sim r a)
    (hx : a.isConsumed x = false) (hv : r.find x = some v) : v.consumed = false := by
  rcases h.find x with ⟨hr, _⟩ | ⟨v', w, hr, ha, hb⟩
  · rw [hr] at hv
    cases hv
  · rw [hr] at hv
    cases hv
    rw [Vars.isConsumed, ha] at hx
    exact Bool.eq_false_iff.mpr fun hc => Bool.eq_false_iff.mp hx (hb.2 hc)

end Sim

namespace Vars

theorem cut_length {vs : Vars} : vs.cut vs.length = vs := by
  unfold cut
  rw [Nat.sub_self, List.drop_zero]

theorem cut_declare {d : Decl} {vs : Vars} : (vs.declare d).cut vs.length = vs := by
  unfold cut declare
  rw [List.length_cons, Nat.add_sub_cancel_left]
  rfl

theorem cut_cut {m n : Nat} {vs : Vars} (h : m ≤ n) : (vs.cut n).cut m = vs.cut m := by
  unfold cut
  rw [List.drop_drop, List.length_drop]
  congr 1
  omega

theorem consume_eq {x : String} {vs : Vars} (h : vs.find x = none) : vs.consume x = vs := by
  induction vs with
  | nil => rfl
  | cons v vs ih =>
    rw [find] at h
    rw [consume]
    split at h
    · cases h
    · next hne => rw [if_neg hne, ih h]

theorem length_cut {n : Nat} {vs : Vars} : (vs.cut n).length = min n vs.length := by
  unfold cut
  rw [List.length_drop]
  omega

end Vars

/-! ## The walk only sets flags -/

/-- `c'` has the variables of `c`, with no flag taken back, and no diagnostic fewer. -/
structure Flat (c c' : Ctx) : Prop where
  sim : Sim c.vars c'.vars
  quiet : c'.diags = [] → c.diags = []

/-- The same, where `c'` may have newer variables. -/
structure Grows (c c' : Ctx) : Prop where
  sim : Sim c.vars (c'.vars.cut c.vars.length)
  quiet : c'.diags = [] → c.diags = []

namespace Flat

theorem refl (c : Ctx) : Flat c c := ⟨.refl _, id⟩

theorem trans {a b c : Ctx} (h₁ : Flat a b) (h₂ : Flat b c) : Flat a c :=
  ⟨h₁.sim.trans h₂.sim, h₁.quiet ∘ h₂.quiet⟩

theorem grows {c c' : Ctx} (h : Flat c c') : Grows c c' := by
  refine ⟨?_, h.quiet⟩
  rw [h.sim.length_eq, Vars.cut_length]
  exact h.sim

theorem emit (c : Ctx) (d : Diag) : Flat c (c.emit d) :=
  ⟨.refl _, fun h => absurd h (List.append_ne_nil_of_right_ne_nil _ (List.cons_ne_nil _ _))⟩

theorem consume (c : Ctx) (x : String) : Flat c (c.consume x) := ⟨Sim.le_consume x _, id⟩

theorem checkUse (c : Ctx) (x : String) : Flat c (c.checkUse x) := by
  unfold Ctx.checkUse
  split
  · exact emit c _
  · exact refl c

theorem checkAssign (c : Ctx) (x : String) : Flat c (c.checkAssign x) := by
  unfold Ctx.checkAssign
  split
  · exact emit c _
  · exact refl c

theorem moveOut (c : Ctx) (x : String) : Flat c (c.moveOut x) := by
  unfold Ctx.moveOut
  split
  · exact refl c
  · split
    · exact (emit c _).trans (consume _ x)
    · exact consume c x

theorem moveOperand (c : Ctx) (op : UnaryOp) (e : Expr) : Flat c (moveOperand c op e) := by
  unfold Semantic.moveOperand
  split
  · exact moveOut c _
  · exact refl c

theorem implicitMove (c : Ctx) (x : String) : Flat c (c.implicitMove x) := by
  unfold Ctx.implicitMove
  split
  · exact refl c
  · split
    · exact refl c
    · split
      · exact emit c _
      · exact consume c x

theorem consumeOpaque (c : Ctx) (x : String) : Flat c (c.consumeOpaque x) := by
  unfold Ctx.consumeOpaque
  split
  · exact refl c
  · split
    · exact consume c x
    · exact refl c

theorem foldl {give : Ctx → String → Ctx} (h : ∀ c x, Flat c (give c x)) (c : Ctx)
    (xs : List String) : Flat c (xs.foldl give c) := by
  induction xs generalizing c with
  | nil => exact refl c
  | cons x xs ih => exact (h c x).trans (ih _)

end Flat

namespace Grows

theorem refl (c : Ctx) : Grows c c := (Flat.refl c).grows

theorem length_le {c c' : Ctx} (h : Grows c c') : c.vars.length ≤ c'.vars.length := by
  have hlen := h.sim.length_eq
  rw [Vars.length_cut] at hlen
  omega

theorem trans {a b c : Ctx} (h₁ : Grows a b) (h₂ : Grows b c) : Grows a c := by
  refine ⟨h₁.sim.trans ?_, h₁.quiet ∘ h₂.quiet⟩
  have h := h₂.sim.cut a.vars.length
  rwa [Vars.cut_cut h₁.length_le] at h

theorem declare (c : Ctx) (d : Decl) : Grows c (c.declare d) := by
  refine ⟨?_, id⟩
  show Sim c.vars ((c.vars.declare d).cut c.vars.length)
  rw [Vars.cut_declare]
  exact .refl _

theorem declareAll (c : Ctx) (ds : List Decl) : Grows c (ds.foldl Ctx.declare c) := by
  induction ds generalizing c with
  | nil => exact refl c
  | cons d ds ih => exact (declare c d).trans (ih _)

/-- Leaving the scope that `c` opened. -/
theorem popScope {c c' : Ctx} (h : Grows c c') : Flat c (c'.popScope c.vars.length) :=
  ⟨h.sim, fun hd => h.quiet (List.append_eq_nil_iff.mp hd).1⟩

/-- Growth without new variables. -/
theorem flat {c c' : Ctx} (h : Grows c c') (hlen : c'.vars.length = c.vars.length) :
    Flat c c' := by
  refine ⟨?_, h.quiet⟩
  have hs := h.sim
  rwa [← hlen, Vars.cut_length] at hs

end Grows

mutual

theorem analyzeExpr_flat (c : Ctx) (e : Expr) : Flat c (analyzeExpr c e) := by
  cases e with
  | literal => exact .refl c
  | hole => exact .refl c
  | arrayLit es => exact .refl c
  | tupleLit es => exact .refl c
  | paren e => exact analyzeExpr_flat c e
  | name x => exact .checkUse c x
  | field x => exact .refl c
  | fieldOf e => exact analyzeExpr_flat c e
  | index b ix => exact (analyzeExpr_flat c b).trans (analyzeExprs_flat _ ix)
  | binary op l r =>
    rw [analyzeExpr]
    split
    · exact analyzeExpr_flat c l
    · exact (analyzeExpr_flat c l).trans (analyzeExpr_flat _ r)
  | unary op e => exact (analyzeExpr_flat c e).trans (.moveOperand _ op e)
  | builtin args => exact analyzeExprs_flat c args
  | ifS a b d =>
    exact ((analyzeExpr_flat c a).trans (analyzeExpr_flat _ b)).trans (analyzeExpr_flat _ d)
  | whenS a b => exact (analyzeExpr_flat c a).trans (analyzeExpr_flat _ b)
  | collective e => exact analyzeExpr_flat c e
  | call f own args =>
    rw [analyzeExpr]
    refine Flat.trans ?_ (.foldl Flat.implicitMove _ _)
    have hargs := (Flat.checkUse c f).trans (analyzeExprs_flat _ args)
    split
    · exact (hargs.trans (analyzeFirst_flat _ args)).trans (.foldl Flat.consumeOpaque _ _)
    · exact hargs
  | entity vals => exact analyzeExprs_flat c vals

theorem analyzeExprs_flat (c : Ctx) (es : List Expr) : Flat c (analyzeExprs c es) := by
  cases es with
  | nil => exact .refl c
  | cons e es => exact (analyzeExpr_flat c e).trans (analyzeExprs_flat _ es)

theorem analyzeFirst_flat (c : Ctx) (es : List Expr) : Flat c (analyzeFirst c es) := by
  cases es with
  | nil => exact .refl c
  | cons e es => exact analyzeExpr_flat c e

end

theorem analyzeOpt_flat (c : Ctx) : (e : Option Expr) → Flat c (analyzeOpt c e)
  | none => .refl c
  | some e => analyzeExpr_flat c e

theorem moveValue_flat (c : Ctx) (e : Expr) : Flat c (moveValue c e) := by
  unfold moveValue
  cases e.bareName? with
  | none => exact .refl c
  | some x => exact .implicitMove c x

theorem analyzeValue_flat (c : Ctx) : (e : Option Expr) → Flat c (analyzeValue c e)
  | none => .refl c
  | some e => (analyzeExpr_flat c e).trans (moveValue_flat _ e)

/-- One value of a `return`. -/
theorem returnValue_flat (c : Ctx) (e : Expr) :
    Flat c (e.bareName?.elim (analyzeExpr c e) (analyzeExpr c e).consumeOpaque) := by
  refine (analyzeExpr_flat c e).trans ?_
  cases e.bareName? with
  | none => exact .refl _
  | some x => exact .consumeOpaque _ x

theorem analyzeReturn_flat (c : Ctx) : (es : List Expr) → Flat c (analyzeReturn c es)
  | [] => .refl c
  | e :: es => (returnValue_flat c e).trans (analyzeReturn_flat _ es)

theorem analyzeTarget_grows (c : Ctx) (g : Target) : Grows c (analyzeTarget c g) := by
  cases g with
  | new d =>
    rw [analyzeTarget]
    split
    · exact .refl c
    · exact .declare c d
  | place x => exact (Flat.checkAssign c x).grows

theorem analyzeTargets_grows (c : Ctx) (gs : List Target) : Grows c (gs.foldl analyzeTarget c) := by
  induction gs generalizing c with
  | nil => exact .refl c
  | cons g gs ih => exact (analyzeTarget_grows c g).trans (ih _)

/-! ### Branches -/

theorem restoreVar_above {b t : Var} (h : Below b t) : Below b (Ctx.restoreVar b t) := by
  unfold Ctx.restoreVar
  split
  · exact ⟨h.1, id⟩
  · exact h

theorem restoreOpaque_flat {c c₁ : Ctx} (h : Flat c c₁) : Flat c (c₁.restoreOpaque c.vars) := by
  refine ⟨?_, h.quiet⟩
  have hz : ∀ b t : Vars, Sim b t → Sim b (List.zipWith Ctx.restoreVar b t) := by
    intro b t hbt
    induction hbt with
    | nil => exact .nil
    | cons hv _ ih => exact .cons (restoreVar_above hv) ih
  exact hz _ _ h.sim

/-- Leaving the scope of the else branch, which has the variables of `c` below it. -/
theorem popElse_flat {c c₁ c₂ : Ctx} (h₁ : Flat c c₁)
    (h₂ : Grows (c₁.restoreOpaque c.vars) c₂) :
    Flat (c₁.restoreOpaque c.vars) (c₂.popScope c.vars.length) := by
  rw [(restoreOpaque_flat h₁).sim.length_eq]
  exact h₂.popScope

/-- A variable after the join is consumed if it was in either branch: the else branch started from
`restoreVar b t`, and an opaque variable that was consumed before still is. -/
theorem joinVar_above {b t v : Var} (hv : Below (Ctx.restoreVar b t) v) :
    Below t (Ctx.joinVar b t v) ∧ Below v (Ctx.joinVar b t v) := by
  have hdecl : t.decl = v.decl := by
    have h := hv.1
    unfold Ctx.restoreVar at h
    split at h <;> exact h
  unfold Ctx.joinVar
  split
  · refine ⟨⟨hdecl, ?_⟩, ⟨rfl, ?_⟩⟩
    · intro ht
      show (if t.consumed != v.consumed then true else t.consumed) = true
      rw [ht]
      split <;> rfl
    · intro hc
      show (if t.consumed != v.consumed then true else t.consumed) = true
      rw [hc]
      cases t.consumed <;> rfl
  · next hno =>
    refine ⟨⟨hdecl, fun ht => hv.2 ?_⟩, .refl v⟩
    unfold Ctx.restoreVar
    rw [hdecl]
    split
    · next hop =>
      -- an opaque variable here was consumed before the branches
      cases hb : b.consumed with
      | true => rfl
      | false => exact absurd (by rw [hop, hb]; rfl) hno
    · exact ht

theorem joinVars_above {b t v : Vars} (hbt : Sim b t)
    (hv : Sim (List.zipWith Ctx.restoreVar b t) v) :
    Sim t (Ctx.joinVars b t v) ∧ Sim v (Ctx.joinVars b t v) := by
  induction hbt generalizing v with
  | nil =>
    cases hv
    exact ⟨.nil, .nil⟩
  | cons _ _ ih =>
    cases hv with
    | cons h hs =>
      obtain ⟨h₁, h₂⟩ := joinVar_above h
      obtain ⟨hs₁, hs₂⟩ := ih hs
      exact ⟨.cons h₁ hs₁, .cons h₂ hs₂⟩

/-- The context after an `if` is above the one after either branch. -/
theorem join_flat {c c₁ c₂ : Ctx} (h₁ : Flat c c₁) (h₂ : Flat (c₁.restoreOpaque c.vars) c₂) :
    Flat c₁ (c₂.join c.vars c₁.vars) ∧ Flat c₂ (c₂.join c.vars c₁.vars) := by
  obtain ⟨ht, hv⟩ := joinVars_above h₁.sim h₂.sim
  have hq : (c₂.join c.vars c₁.vars).diags = [] → c₂.diags = [] :=
    fun h => (List.append_eq_nil_iff.mp h).1
  exact ⟨⟨ht, h₂.quiet ∘ hq⟩, ⟨hv, hq⟩⟩

mutual

theorem analyzeStmt_grows (c : Ctx) (s : Stmt) : Grows c (analyzeStmt c s) := by
  cases s with
  | bind d value => exact (analyzeValue_flat c value).grows.trans (.declare _ d)
  | assign target value =>
    rw [analyzeStmt]
    have h := ((analyzeExpr_flat c target).trans (analyzeExpr_flat _ value)).trans
      (moveValue_flat _ value)
    cases target.bareName? with
    | none => exact h.grows
    | some x => exact (h.trans (.checkAssign _ x)).grows
  | forC init cond incr body =>
    exact (Grows.popScope ((((analyzeStmts_grows c init).trans (analyzeOpt_flat _ cond).grows).trans
      (analyzeStmts_grows _ incr)).trans (analyzeStmts_grows _ body))).grows
  | forever body => exact (analyzeStmts_grows c body).popScope.grows
  | ite cond thn els =>
    have h₁ := (analyzeStmts_grows (analyzeExpr c cond) thn).popScope
    have h₂ := popElse_flat h₁ (analyzeStmts_grows _ els)
    exact ((analyzeExpr_flat c cond).trans (h₁.trans (join_flat h₁ h₂).1)).grows
  | run => exact .refl c
  | brk => exact .refl c
  | cont => exact .refl c
  | expr e => exact (analyzeExpr_flat c e).grows
  | fan binds body =>
    exact ((Grows.declareAll c binds).trans (analyzeStmts_grows _ body)).popScope.grows
  | ret es => exact (analyzeReturn_flat c es).grows
  | multiBind targets value =>
    exact (analyzeOpt_flat c value).grows.trans (analyzeTargets_grows _ targets)
  | block body => exact (analyzeStmts_grows c body).popScope.grows
  | matchOn scrut arms => exact ((analyzeOpt_flat c scrut).trans (analyzeArms_flat _ arms)).grows

theorem analyzeStmts_grows (c : Ctx) (ss : List Stmt) : Grows c (analyzeStmts c ss) := by
  cases ss with
  | nil => exact .refl c
  | cons s ss => exact (analyzeStmt_grows c s).trans (analyzeStmts_grows _ ss)

theorem analyzeArms_flat (c : Ctx) (arms : List (List Stmt)) : Flat c (analyzeArms c arms) := by
  cases arms with
  | nil => exact .refl c
  | cons arm arms => exact (analyzeStmts_grows c arm).popScope.trans (analyzeArms_flat _ arms)

end

/-! ## The walk covers the path -/

/-- What is asked of the events of a path: a loop goes on in the state it was in. -/
def Admitted : Event → Prop
  | .use _ => True
  | .again before now => now = before

def Unmoved : Event → Prop
  | .use v => v.consumed = false
  | .again _ _ => True

/-- The walk from `c` to `c'` covers the paths of `p`: they touch nothing that was moved, a normal
end is below `c'`, and a break or a `continue` is below it on the variables of `c`. -/
def Sound (c c' : Ctx) (p : Path Vars Event) : Prop :=
  Triple Admitted Unmoved (Sim · c.vars) p (Sim · c'.vars)
    (fun r => Sim (r.cut c.vars.length) (c'.vars.cut c.vars.length))

namespace Sound

variable {c c₁ c₂ c' : Ctx} {p q : Path Vars Event}

theorem act {f : Vars → Vars × List Event}
    (h : ∀ r, Sim r c.vars → (∀ e ∈ (f r).2, Unmoved e) ∧ Sim (f r).1 c'.vars) :
    Sound c c' (.act f) :=
  Triple.act fun r hr _ => h r hr

theorem skip (c : Ctx) : Sound c c .skip := Triple.skip fun _ h => h

/-- The walk may start higher and end lower than the one that covers `p`. -/
theorem weaken (h : Sound c₁ c₂ p) (h₁ : Sim c.vars c₁.vars) (h₂ : Sim c₂.vars c'.vars) :
    Sound c c' p := by
  refine Triple.conseq h (fun r hr => hr.trans h₁) (fun r hr => hr.trans h₂) ?_
  intro r hr
  rw [h₁.length_eq]
  exact hr.trans (h₂.cut _)

theorem seq (hp : Sound c c₁ p) (hq : Sound c₁ c₂ q) (h₁ : Grows c c₁) (h₂ : Grows c₁ c₂) :
    Sound c c₂ (.seq p q) := by
  refine Triple.seq (Triple.conseq hp (fun _ h => h) (fun _ h => h) ?_)
    (Triple.conseq hq (fun _ h => h) (fun _ h => h) ?_)
  · intro r hr
    have h := h₂.sim.cut c.vars.length
    rw [Vars.cut_cut h₁.length_le] at h
    exact hr.trans h
  · intro r hr
    have h := hr.cut c.vars.length
    rwa [Vars.cut_cut h₁.length_le, Vars.cut_cut h₁.length_le] at h

theorem choice (hp : Sound c c' p) (hq : Sound c c' q) : Sound c c' (.choice p q) :=
  Triple.choice hp hq

/-- What a scope that was opened in `s` leaves behind. -/
theorem cutBack_sim {s s₁ a b : Vars} (hs : Sim s a)
    (h : Sim (s₁.cut a.length) (b.cut a.length)) : Sim (cutBack s s₁) (b.cut a.length) := by
  unfold cutBack
  rwa [hs.length_eq]

/-- A scope of its own. -/
theorem within (hp : Sound c c' p) : Sound c (c'.popScope c.vars.length) (.within cutBack p) := by
  refine Triple.within hp (fun s s₁ hs h₁ => cutBack_sim hs (h₁.cut _)) ?_
  intro s s₁ hs h₁
  exact (cutBack_sim hs h₁).cut _

/-- A loop whose condition, increment and body the walk meets in this order. -/
theorem loop {k : LoopForm} {c₃ c₄ : Ctx} {cond body incr : Path Vars Event}
    (hcond : Sound c₁ c₂ cond) (hincr : Sound c₂ c₃ incr) (hbody : Sound c₃ c₄ body)
    (h₁ : Flat c₁ c₂) (h₂ : Flat c₂ c₃) (h₃ : Grows c₃ c₄) :
    Sound c₁ (c₄.popScope c₁.vars.length) (.Loop k cutBack .again (fun _ => cond) body incr) := by
  have h₁₃ := h₁.trans h₂
  have hlen : c₁.vars.length = c₃.vars.length := h₁₃.sim.length_eq
  -- what is below `c₂` is below the end of the walk
  have hend : Sim c₂.vars (c₄.vars.cut c₁.vars.length) := hlen ▸ h₂.sim.trans h₃.sim
  have hleave : ∀ s s₁ : Vars, Sim s c₂.vars →
      Sim (s₁.cut c₃.vars.length) (c₄.vars.cut c₃.vars.length) →
      Sim (cutBack s s₁) (c₄.vars.cut c₁.vars.length) := by
    intro s s₁ hs hs₁
    rw [hlen]
    exact cutBack_sim (hs.trans h₂.sim) hs₁
  have hcond' : Triple Admitted Unmoved (Sim · c₁.vars) cond (Sim · c₂.vars)
      (fun r => Sim (r.cut c₁.vars.length)
        ((c₄.popScope c₁.vars.length).vars.cut c₁.vars.length)) :=
    Triple.conseq hcond (fun _ h => h) (fun _ h => h) fun r hr => hr.trans (hend.cut _)
  have hbody' := Triple.conseq (P := (Sim · c₂.vars)) hbody (fun r hr => hr.trans h₂.sim)
    (fun _ h => h) (fun _ h => h)
  exact Triple.loop (fun a b h => ⟨h, trivial⟩) (fun _ => hcond') hbody' hincr
    (fun _ s hs => hs.trans hend) hleave
    (fun _ s s₁ hs hs₁ => hleave s s₁ hs (hs₁.cut _))
    (fun _ s s₁ hs hs₁ => (hleave s s₁ hs hs₁).cut _)

/-- A loop without condition and increment. -/
theorem rounds {k : LoopForm} (hp : Sound c c' p) (h : Grows c c') :
    Sound c (c'.popScope c.vars.length) (.Loop k cutBack .again (fun _ => .skip) p .skip) :=
  loop (skip c) (skip c) hp (.refl c) (.refl c) h

end Sound

/-! ### Expressions -/

theorem touch_sound {c : Ctx} {x : String} (h : c.vars.isConsumed x = false) :
    Sound c c (touch x) := by
  refine .act fun r hr => ⟨?_, hr⟩
  intro e he
  obtain ⟨v, hv, rfl⟩ := List.mem_map.mp he
  exact hr.not_moved h (Option.mem_toList.mp hv)

theorem checkUse_sound {c : Ctx} {x : String} (h : (c.checkUse x).diags = []) :
    c.vars.isConsumed x = false ∧ c.checkUse x = c := by
  unfold Ctx.checkUse at h ⊢
  split at h
  · exact absurd h (List.append_ne_nil_of_right_ne_nil _ (List.cons_ne_nil _ _))
  · next hc => exact ⟨Bool.eq_false_iff.mpr hc, if_neg hc⟩

theorem name_sound {c : Ctx} {x : String} (h : (c.checkUse x).diags = []) :
    Sound c (c.checkUse x) (touch x) := by
  obtain ⟨hx, heq⟩ := checkUse_sound h
  rw [heq]
  exact touch_sound hx

theorem take_sound (c : Ctx) (x : String) : Sound c (c.moveOut x) (take x) := by
  refine .act fun r hr => ⟨fun _ he => absurd he List.not_mem_nil, ?_⟩
  unfold Ctx.moveOut
  rcases hr.find x with ⟨hr₀, ha₀⟩ | ⟨v, w, _, ha, _⟩
  · rw [ha₀]
    show Sim (r.consume x) c.vars
    rwa [Vars.consume_eq hr₀]
  · rw [ha]
    show Sim (r.consume x) ((if w.decl.borrowed then c.emit _ else c).consume x).vars
    split <;> exact hr.consume x

/-- `give` takes exactly the variables with `p`. -/
def Gives (p : Decl → Bool) (give : Ctx → String → Ctx) : Prop :=
  ∀ c x, (give c x).diags = [] →
    (give c x).vars = if (c.vars.find x).any (fun v => p v.decl) then c.vars.consume x else c.vars

theorem consumeOpaque_gives : Gives isOpaque Ctx.consumeOpaque := by
  intro c x _
  unfold Ctx.consumeOpaque
  cases hf : c.vars.find x with
  | none => rfl
  | some v =>
    rw [Option.any_some]
    show (if isOpaque v.decl then c.consume x else c).vars = _
    by_cases ho : isOpaque v.decl = true
    · rw [if_pos ho, if_pos ho]
      rfl
    · rw [if_neg ho, if_neg ho]

theorem implicitMove_gives : Gives Decl.moveOnly Ctx.implicitMove := by
  intro c x hd
  unfold Ctx.implicitMove at hd ⊢
  cases hf : c.vars.find x with
  | none => rfl
  | some v =>
    rw [hf] at hd
    rw [Option.any_some]
    by_cases hm : v.decl.moveOnly = true
    · simp only [hm, Bool.not_true, Bool.false_eq_true, if_false, if_true] at hd ⊢
      split at hd
      · exact absurd hd (List.append_ne_nil_of_right_ne_nil _ (List.cons_ne_nil _ _))
      · next hb =>
        rw [if_neg hb]
        rfl
    · simp only [hm, Bool.not_false, if_true, Bool.false_eq_true, if_false]

section HandOver

variable {p : Decl → Bool} {give : Ctx → String → Ctx}

theorem handOver_sound (hg : Gives p give) {c : Ctx} {x : String} (hd : (give c x).diags = [])
    (hf : fresh p c x = true) : Sound c (give c x) (handOver p x) := by
  refine .act fun r hr => ?_
  rw [hg c x hd]
  rcases hr.find x with ⟨hr₀, ha₀⟩ | ⟨v, w, hv, hw, hb⟩
  · rw [hr₀, ha₀]
    exact ⟨fun _ he => absurd he List.not_mem_nil, hr⟩
  · rw [fresh, hw] at hf
    rw [hv, hw]
    simp only [Option.any_some, ← hb.1]
    cases hp : p v.decl with
    | false => exact ⟨fun _ he => absurd he List.not_mem_nil, hr⟩
    | true =>
      refine ⟨fun e he => ?_, hr.consume x⟩
      cases List.mem_singleton.mp he
      -- the walk has not consumed the variable, so it was not moved
      have hw' : w.consumed = false := by
        simpa only [Option.all_some, ← hb.1, hp, Bool.not_true, Bool.false_or,
          Bool.not_eq_true'] using hf
      exact Bool.eq_false_iff.mpr fun hc => Bool.eq_false_iff.mp hw' (hb.2 hc)

theorem handOverAll_sound (hg : Gives p give) (hflat : ∀ c x, Flat c (give c x)) (c : Ctx)
    (xs : List String) (hd : (xs.foldl give c).diags = [])
    (hf : freshAll p give c xs = true) : Sound c (xs.foldl give c) (handOverAll p xs) := by
  induction xs generalizing c with
  | nil => exact .skip c
  | cons x xs ih =>
    rw [freshAll, Bool.and_eq_true] at hf
    have hrest := Flat.foldl hflat (give c x) xs
    exact .seq (handOver_sound hg (hrest.quiet hd) hf.1) (ih (give c x) hd hf.2) (hflat c x).grows
      hrest.grows

end HandOver

/-- A bare name the walk has just passed is fresh. -/
theorem fresh_of_name {p : Decl → Bool} {c : Ctx} {x : String} (h : (c.checkUse x).diags = []) :
    fresh p (c.checkUse x) x = true := by
  obtain ⟨hx, heq⟩ := checkUse_sound h
  rw [heq, fresh]
  unfold Vars.isConsumed at hx
  cases hf : c.vars.find x with
  | none => rfl
  | some v =>
    rw [hf, Option.any_some] at hx
    rw [Option.all_some, hx, Bool.not_false, Bool.or_true]

theorem bareName_eq {e : Expr} {x : String} (h : e.bareName? = some x) : e = .name x := by
  cases e <;> cases h
  rfl

/-- `Eval e` and then the hand-over of `e` when it is a bare name. -/
theorem evalGive_sound {p : Decl → Bool} {give : Ctx → String → Ctx} (hg : Gives p give)
    (hflat : ∀ c x, Flat c (give c x)) {c : Ctx} {e : Expr}
    (he : Sound c (analyzeExpr c e) (Eval e))
    (hd : (e.bareName?.elim (analyzeExpr c e) (give (analyzeExpr c e))).diags = []) :
    Sound c (e.bareName?.elim (analyzeExpr c e) (give (analyzeExpr c e)))
      (.seq (Eval e) (handOverAll p e.bareName?.toList)) := by
  cases hb : e.bareName? with
  | none =>
    exact .seq he (.skip _) (analyzeExpr_flat c e).grows (.refl _)
  | some x =>
    rw [hb] at hd
    cases bareName_eq hb
    have hname : (c.checkUse x).diags = [] := (hflat _ x).quiet hd
    refine .seq he ?_ (analyzeExpr_flat c _).grows (hflat _ x).grows
    refine handOverAll_sound hg hflat _ [x] hd ?_
    rw [freshAll, freshAll, Bool.and_true]
    exact fresh_of_name hname

theorem operand_sound {op : UnaryOp} {e : Expr} (c : Ctx)
    (h : (op != .move || e.parenName? == e.bareName?) = true) :
    Sound c (moveOperand c op e) (takeOperand op e) := by
  unfold takeOperand
  by_cases hop : op = .move
  · subst hop
    rw [bne_self_eq_false, Bool.false_or, beq_iff_eq] at h
    rw [if_pos rfl, h]
    cases hb : e.bareName? with
    | none =>
      have hc : moveOperand c .move e = c := by
        cases e <;> first | rfl | cases hb
      rw [hc]
      exact .skip c
    | some x =>
      cases bareName_eq hb
      exact take_sound c x
  · rw [if_neg hop]
    have hc : moveOperand c op e = c := by
      cases op <;> first | rfl | exact absurd rfl hop
    rw [hc]
    exact .skip c

/-- The hand-overs of `insert`. -/
theorem insert_sound {f : String} {args : List Expr} {c : Ctx}
    (hf : (f != "insert" || freshAll isOpaque Ctx.consumeOpaque (analyzeFirst c args)
      (insertNames args)) = true)
    (hd : (if f == "insert" then (insertNames args).foldl Ctx.consumeOpaque (analyzeFirst c args)
      else c).diags = []) :
    Sound c (if f == "insert" then (insertNames args).foldl Ctx.consumeOpaque (analyzeFirst c args)
      else c) (handOverAll isOpaque (if f == "insert" then insertNames args else [])) := by
  by_cases hi : (f == "insert") = true
  · rw [if_pos hi] at hd
    rw [if_pos hi, if_pos hi]
    rw [bne, hi, Bool.not_true, Bool.false_or] at hf
    exact (handOverAll_sound consumeOpaque_gives Flat.consumeOpaque _ _ hd hf).weaken
      (analyzeFirst_flat c args).sim (.refl _)
  · rw [if_neg hi, if_neg hi]
    exact .skip c

theorem insert_flat {f : String} {args : List Expr} {c : Ctx} :
    Flat c (if f == "insert" then (insertNames args).foldl Ctx.consumeOpaque (analyzeFirst c args)
      else c) := by
  split
  · exact (analyzeFirst_flat c args).trans (.foldl Flat.consumeOpaque _ _)
  · exact .refl c

mutual

theorem eval_sound (c : Ctx) (e : Expr) (hd : (analyzeExpr c e).diags = [])
    (hc : covered c e = true) : Sound c (analyzeExpr c e) (Eval e) := by
  cases e with
  | literal => exact .skip c
  | hole => exact .skip c
  | arrayLit es =>
    rw [covered, Bool.and_eq_true, beq_iff_eq] at hc
    have h := evalAll_sound c es (hc.1.symm ▸ hd) hc.2
    rwa [hc.1] at h
  | tupleLit es =>
    rw [covered, Bool.and_eq_true, beq_iff_eq] at hc
    have h := evalAll_sound c es (hc.1.symm ▸ hd) hc.2
    rwa [hc.1] at h
  | paren e => exact eval_sound c e hd hc
  | name x => exact name_sound hd
  | field x =>
    rw [covered, Bool.not_eq_true'] at hc
    exact touch_sound hc
  | fieldOf e => exact eval_sound c e hd hc
  | index b ix =>
    rw [covered, Bool.and_eq_true] at hc
    have hix := analyzeExprs_flat (analyzeExpr c b) ix
    exact .seq (eval_sound c b (hix.quiet hd) hc.1) (evalAll_sound _ ix hd hc.2)
      (analyzeExpr_flat c b).grows hix.grows
  | binary op l r =>
    rw [covered, Bool.and_eq_true] at hc
    rw [analyzeExpr] at hd ⊢
    cases op with
    | fmap => exact eval_sound c l hd hc.1
    | logical =>
      have hr := analyzeExpr_flat (analyzeExpr c l) r
      exact .seq (eval_sound c l (hr.quiet hd) hc.1)
        (.choice ((Sound.skip _).weaken (.refl _) hr.sim) (eval_sound _ r hd hc.2))
        (analyzeExpr_flat c l).grows hr.grows
    | other =>
      have hr := analyzeExpr_flat (analyzeExpr c l) r
      exact .seq (eval_sound c l (hr.quiet hd) hc.1) (eval_sound _ r hd hc.2)
        (analyzeExpr_flat c l).grows hr.grows
  | unary op e =>
    rw [covered, Bool.and_eq_true] at hc
    have hop := Flat.moveOperand (analyzeExpr c e) op e
    exact .seq (eval_sound c e (hop.quiet hd) hc.1) (operand_sound _ hc.2)
      (analyzeExpr_flat c e).grows hop.grows
  | builtin args => exact evalAll_sound c args hd hc
  | ifS a b d =>
    rw [covered, Bool.and_eq_true, Bool.and_eq_true] at hc
    have hb := analyzeExpr_flat (analyzeExpr c a) b
    have hd' := analyzeExpr_flat (analyzeExpr (analyzeExpr c a) b) d
    -- either arm is covered by the walk over both
    exact .seq (eval_sound c a (hb.quiet (hd'.quiet hd)) hc.1.1)
      (.choice ((eval_sound _ b (hd'.quiet hd) hc.1.2).weaken (.refl _) hd'.sim)
        ((eval_sound _ d hd hc.2).weaken hb.sim (.refl _)))
      (analyzeExpr_flat c a).grows (hb.trans hd').grows
  | whenS a b =>
    rw [covered, Bool.and_eq_true] at hc
    have hb := analyzeExpr_flat (analyzeExpr c a) b
    exact .seq (eval_sound c a (hb.quiet hd) hc.1)
      (.choice ((Sound.skip _).weaken (.refl _) hb.sim) (eval_sound _ b hd hc.2))
      (analyzeExpr_flat c a).grows hb.grows
  | collective e =>
    have hflat := analyzeExpr_flat c e
    have h := Sound.rounds (k := ⟨false, true⟩) (eval_sound c e hd hc) hflat.grows
    refine h.weaken (.refl _) ?_
    show Sim ((analyzeExpr c e).vars.cut c.vars.length) (analyzeExpr c e).vars
    rw [hflat.sim.length_eq, Vars.cut_length]
    exact .refl _
  | call f own args =>
    rw [covered, Bool.and_eq_true, Bool.and_eq_true] at hc
    rw [analyzeExpr] at hd ⊢
    have hf := Flat.checkUse c f
    have hargs := analyzeExprs_flat (c.checkUse f) args
    have hown := fun c₂ => Flat.foldl Flat.implicitMove c₂ (ownNames own args)
    have hd₂ := (hown _).quiet hd
    have hd₁ := insert_flat.quiet hd₂
    exact .seq (name_sound (hargs.quiet hd₁))
      (.seq (evalAll_sound _ args hd₁ hc.1.1)
        (.seq (insert_sound hc.1.2 hd₂)
          (handOverAll_sound implicitMove_gives Flat.implicitMove _ _ hd hc.2)
          insert_flat.grows (hown _).grows)
        hargs.grows (insert_flat.trans (hown _)).grows)
      hf.grows (hargs.trans (insert_flat.trans (hown _))).grows
  | entity vals => exact evalAll_sound c vals hd hc

theorem evalAll_sound (c : Ctx) (es : List Expr) (hd : (analyzeExprs c es).diags = [])
    (hc : coveredAll c es = true) : Sound c (analyzeExprs c es) (EvalAll es) := by
  cases es with
  | nil => exact .skip c
  | cons e es =>
    rw [coveredAll, Bool.and_eq_true] at hc
    have hes := analyzeExprs_flat (analyzeExpr c e) es
    exact .seq (eval_sound c e (hes.quiet hd) hc.1) (evalAll_sound _ es hd hc.2)
      (analyzeExpr_flat c e).grows hes.grows

end

/-! ### Statements -/

theorem evalOpt_sound (c : Ctx) (e : Option Expr) (hd : (analyzeOpt c e).diags = [])
    (hc : coveredOpt c e = true) : Sound c (analyzeOpt c e) (EvalOpt e) := by
  cases e with
  | none => exact .skip c
  | some e => exact eval_sound c e hd hc

theorem evalValue_sound (c : Ctx) (e : Expr) (hd : (moveValue (analyzeExpr c e) e).diags = [])
    (hc : covered c e = true) : Sound c (moveValue (analyzeExpr c e) e) (EvalValue e) :=
  evalGive_sound implicitMove_gives Flat.implicitMove
    (eval_sound c e ((moveValue_flat _ e).quiet hd) hc) hd

theorem evalReturn_sound (c : Ctx) (es : List Expr) (hd : (analyzeReturn c es).diags = [])
    (hc : coveredReturn c es = true) : Sound c (analyzeReturn c es) (EvalReturn es) := by
  induction es generalizing c with
  | nil => exact Triple.leave fun _ _ => trivial
  | cons e es ih =>
    rw [coveredReturn, Bool.and_eq_true] at hc
    have hrest := fun c₁ => analyzeReturn_flat c₁ es
    have hd₁ := (hrest _).quiet hd
    have hv := returnValue_flat c e
    have he : (analyzeExpr c e).diags = [] := by
      cases hb : e.bareName? with
      | none => rwa [hb] at hd₁
      | some x =>
        rw [hb] at hd₁
        exact (Flat.consumeOpaque _ x).quiet hd₁
    exact .seq (evalGive_sound consumeOpaque_gives Flat.consumeOpaque (eval_sound c e he hc.1) hd₁)
      (ih _ hd hc.2) hv.grows (hrest _).grows

theorem declare_sound (c : Ctx) (d : Decl) : Sound c (c.declare d) (declareVar d) :=
  .act fun _ hr => ⟨fun _ he => absurd he List.not_mem_nil, hr.declare d⟩

theorem declareAll_vars (c : Ctx) (ds : List Decl) :
    (ds.foldl Ctx.declare c).vars = c.vars.declareAll ds := by
  induction ds generalizing c with
  | nil => rfl
  | cons d ds ih => exact ih (c.declare d)

theorem checkAssign_sound {c : Ctx} {x : String} (h : (c.checkAssign x).diags = []) :
    Sound c (c.checkAssign x) (touch x) := by
  unfold Ctx.checkAssign at h ⊢
  split at h
  · exact absurd h (List.append_ne_nil_of_right_ne_nil _ (List.cons_ne_nil _ _))
  · next hc =>
    rw [if_neg hc]
    exact touch_sound (Bool.eq_false_iff.mpr hc)

theorem bindTarget_sound (c : Ctx) (g : Target) (hd : (analyzeTarget c g).diags = []) :
    Sound c (analyzeTarget c g) (BindTarget g) := by
  cases g with
  | new d =>
    rw [analyzeTarget, BindTarget]
    split
    · exact .skip c
    · exact declare_sound c d
  | place x => exact checkAssign_sound hd

theorem bindTargets_sound (c : Ctx) (gs : List Target)
    (hd : (gs.foldl analyzeTarget c).diags = []) :
    Sound c (gs.foldl analyzeTarget c) (BindTargets gs) := by
  induction gs generalizing c with
  | nil => exact .skip c
  | cons g gs ih =>
    have hrest := analyzeTargets_grows (analyzeTarget c g) gs
    exact .seq (bindTarget_sound c g (hrest.quiet hd)) (ih _ hd) (analyzeTarget_grows c g) hrest

/-- The store of an assignment. A plain name is checked by the walk, the root of another target by
the condition. -/
theorem store_sound {c : Ctx} {target : Expr}
    (hd : (target.bareName?.elim c c.checkAssign).diags = [])
    (hc : (target.bareName?.isSome || target.root?.all fun x => !c.vars.isConsumed x) = true) :
    Sound c (target.bareName?.elim c c.checkAssign) (store target) := by
  cases hb : target.bareName? with
  | some x =>
    rw [hb] at hd
    cases bareName_eq hb
    exact checkAssign_sound hd
  | none =>
    rw [hb, Option.isSome_none, Bool.false_or] at hc
    unfold store
    cases hr : target.root? with
    | none => exact .skip c
    | some x =>
      rw [hr, Option.all_some, Bool.not_eq_true'] at hc
      exact touch_sound hc

theorem popScope_quiet {c : Ctx} {n : Nat} (h : (c.popScope n).diags = []) : c.diags = [] :=
  (List.append_eq_nil_iff.mp h).1

mutual

theorem exec_sound (c : Ctx) (s : Stmt) (hd : (analyzeStmt c s).diags = [])
    (hc : coveredStmt c s = true) : Sound c (analyzeStmt c s) (Exec s) := by
  cases s with
  | bind d value =>
    refine .seq ?_ (declare_sound _ d) (analyzeValue_flat c value).grows (.declare _ d)
    cases value with
    | none => exact .skip c
    | some e => exact evalValue_sound c e hd hc
  | assign target value =>
    rw [coveredStmt, Bool.and_eq_true, Bool.and_eq_true] at hc
    rw [analyzeStmt] at hd ⊢
    have ht := analyzeExpr_flat c target
    have hv := (analyzeExpr_flat (analyzeExpr c target) value).trans (moveValue_flat _ value)
    have hs : ∀ c₁ : Ctx, Flat c₁ (target.bareName?.elim c₁ c₁.checkAssign) := by
      intro c₁
      cases target.bareName? with
      | none => exact .refl c₁
      | some x => exact .checkAssign c₁ x
    have hd₁ := (hs _).quiet hd
    exact .seq (eval_sound c target (hv.quiet hd₁) hc.1.1)
      (.seq (evalValue_sound _ value hd₁ hc.1.2) (store_sound hd hc.2) hv.grows (hs _).grows)
      ht.grows (hv.trans (hs _)).grows
  | forC init cond incr body =>
    rw [coveredStmt] at hc
    simp only [Bool.and_eq_true, beq_iff_eq] at hc
    obtain ⟨⟨⟨⟨hinit, hcond⟩, hincr⟩, hlen⟩, hbody⟩ := hc
    have g₁ := analyzeStmts_grows c init
    have g₂ := analyzeOpt_flat (analyzeStmts c init) cond
    have g₃ := (analyzeStmts_grows (analyzeOpt (analyzeStmts c init) cond) incr).flat hlen
    have g₄ := analyzeStmts_grows
      (analyzeStmts (analyzeOpt (analyzeStmts c init) cond) incr) body
    have d₄ := popScope_quiet hd
    have d₃ := g₄.quiet d₄
    have d₂ := g₃.quiet d₃
    have hloop := Sound.loop (k := ⟨cond.isSome, false⟩) (evalOpt_sound _ cond d₂ hcond)
      (execAll_sound _ incr d₃ hincr) (execAll_sound _ body d₄ hbody) g₂ g₃ g₄
    have hpop := Grows.popScope (((g₂.trans g₃).grows).trans g₄)
    have h := (Sound.seq (execAll_sound c init (g₂.quiet d₂) hinit) hloop g₁ hpop.grows).within
    refine h.weaken (.refl _) ?_
    -- the scope of the loop is cut back twice, first to the header and then to before it
    show Sim (Vars.cut _ (Vars.cut _ _)) (Vars.cut _ _)
    rw [Vars.cut_cut g₁.length_le]
    exact .refl _
  | forever body =>
    exact .rounds (execAll_sound c body (popScope_quiet hd) hc) (analyzeStmts_grows c body)
  | ite cond thn els =>
    rw [coveredStmt] at hc
    simp only [Bool.and_eq_true] at hc
    obtain ⟨⟨hcond, hthn⟩, hels⟩ := hc
    rw [analyzeStmt] at hd ⊢
    have h₀ := analyzeExpr_flat c cond
    have gt := analyzeStmts_grows (analyzeExpr c cond) thn
    have h₁ := gt.popScope
    have hr := restoreOpaque_flat h₁
    have h₂ := popElse_flat h₁ (analyzeStmts_grows _ els)
    obtain ⟨hj₁, hj₂⟩ := join_flat h₁ h₂
    have d₁ := hj₁.quiet hd
    have hthen := (execAll_sound _ thn (popScope_quiet d₁) hthn).within
    have helse := (execAll_sound _ els (popScope_quiet (hj₂.quiet hd)) hels).within
    rw [← hr.sim.length_eq] at helse
    exact .seq (eval_sound c cond (h₁.quiet d₁) hcond)
      (.choice (hthen.weaken (.refl _) hj₁.sim) (helse.weaken hr.sim hj₂.sim)) h₀.grows (h₁.trans hj₁).grows
  | run => exact .skip c
  | brk => exact Triple.leave fun _ h => h.cut _
  | cont => exact Triple.leave fun _ h => h.cut _
  | expr e => exact eval_sound c e hd hc
  | fan binds body =>
    have hb := analyzeStmts_grows (binds.foldl Ctx.declare c) body
    have hdecl : Sound c (binds.foldl Ctx.declare c)
        (.act fun r => (r.declareAll binds, [])) := by
      refine .act fun r hr => ⟨fun _ he => absurd he List.not_mem_nil, ?_⟩
      rw [declareAll_vars]
      exact hr.declareAll binds
    exact .rounds (.seq hdecl (execAll_sound _ body (popScope_quiet hd) hc) (.declareAll c binds) hb)
      ((Grows.declareAll c binds).trans hb)
  | ret es => exact evalReturn_sound c es hd hc
  | multiBind targets value =>
    have hg := analyzeTargets_grows (analyzeOpt c value) targets
    exact .seq (evalOpt_sound c value (hg.quiet hd) hc) (bindTargets_sound _ targets hd)
      (analyzeOpt_flat c value).grows hg
  | block body => exact (execAll_sound c body (popScope_quiet hd) hc).within
  | matchOn scrut arms =>
    rw [coveredStmt, Bool.and_eq_true] at hc
    have harms := analyzeArms_flat (analyzeOpt c scrut) arms
    exact .seq (evalOpt_sound c scrut (harms.quiet hd) hc.1) (execArm_sound _ arms hd hc.2)
      (analyzeOpt_flat c scrut).grows harms.grows

theorem execAll_sound (c : Ctx) (ss : List Stmt) (hd : (analyzeStmts c ss).diags = [])
    (hc : coveredStmts c ss = true) : Sound c (analyzeStmts c ss) (ExecAll ss) := by
  cases ss with
  | nil => exact .skip c
  | cons s ss =>
    rw [coveredStmts, Bool.and_eq_true] at hc
    have hss := analyzeStmts_grows (analyzeStmt c s) ss
    exact .seq (exec_sound c s (hss.quiet hd) hc.1) (execAll_sound _ ss hd hc.2)
      (analyzeStmt_grows c s) hss

theorem execArm_sound (c : Ctx) (arms : List (List Stmt)) (hd : (analyzeArms c arms).diags = [])
    (hc : coveredArms c arms = true) : Sound c (analyzeArms c arms) (ExecArm arms) := by
  cases arms with
  | nil => exact .skip c
  | cons arm arms =>
    rw [coveredArms, Bool.and_eq_true] at hc
    have hpop := (analyzeStmts_grows c arm).popScope
    have hrest := analyzeArms_flat ((analyzeStmts c arm).popScope c.vars.length) arms
    exact .choice
      ((execAll_sound c arm (popScope_quiet (hrest.quiet hd)) hc.1).within.weaken (.refl _)
        hrest.sim)
      ((execArm_sound _ arms hd hc.2).weaken hpop.sim (.refl _))

end

/-! ## The result -/

theorem atEntry_sim (outer : Vars) (params : List Decl) :
    Sim (atEntry outer params) (outer.declareAll params) := by
  refine Sim.declareAll params ?_
  induction outer with
  | nil => exact .nil
  | cons v vs ih => exact .cons ⟨rfl, fun h => Bool.noConfusion h⟩ ih

/-- Every steady path of an accepted, covered body touches nothing that was moved before on it. -/
theorem clean_of_steady {outer : Vars} {params : List Decl} {body : List Stmt}
    (hacc : Accepted outer params body) (hcov : Covered outer params body) {o : Outcome}
    {r : Vars} {t : List Event} (hrun : ExecAll body (atEntry outer params) o r t)
    (hsteady : Steady t) : Clean t := by
  have hsound := execAll_sound ⟨outer.declareAll params, []⟩ body (popScope_quiet hacc) hcov
  have hadm : ∀ e ∈ t, Admitted e := by
    intro e he
    cases e with
    | use v => trivial
    | again before now => exact hsteady before now he
  obtain ⟨hgood, _⟩ := hsound _ o r t (atEntry_sim outer params) hrun hadm
  exact fun v hv => hgood _ hv

/-- `open_res()(r:); for (; 1; ) { poll(r); } sink(move r);` -/
def pollThenSink : List Stmt :=
  [.multiBind [.new resource] (some (.call "open_res" [] [])),
    .forC [] (some .literal) [] [.expr (.call "poll" [] [.name "r"])], sinkResource]

theorem poll_run : ExecAll [.expr (.call "poll" [] [.name "r"])] [⟨resource, false⟩] .normal
    [⟨resource, false⟩] [.use ⟨resource, false⟩] := by
  have hf : touch "poll" [⟨resource, false⟩] .normal [⟨resource, false⟩] [] := Path.act_run _ _
  have hx : touch "r" [⟨resource, false⟩] .normal [⟨resource, false⟩] [.use ⟨resource, false⟩] :=
    Path.act_run _ _
  have hcall : Eval (.call "poll" [] [.name "r"]) [⟨resource, false⟩] .normal [⟨resource, false⟩]
      [.use ⟨resource, false⟩] :=
    Path.seq_run hf (Path.seq_run (Path.seq_run hx (Path.skip_run _))
      (Path.seq_run (Path.skip_run _) (Path.skip_run _)))
  exact Path.seq_run hcall (Path.skip_run _)

/-- Two rounds of the loop, and then `r` is moved. -/
theorem pollThenSink_run :
    ∃ r t, ExecAll pollThenSink (atEntry [] []) .normal r t ∧ Steady t := by
  have hloop : Path.Loop ⟨true, false⟩ cutBack Event.again (fun _ => EvalOpt (some .literal))
      (ExecAll [.expr (.call "poll" [] [.name "r"])]) (ExecAll []) [⟨resource, false⟩] .normal
      _ _ :=
    .next (Path.skip_run _) poll_run (.inl rfl) (Path.skip_run _)
      (.next (Path.skip_run _) poll_run (.inl rfl) (Path.skip_run _)
        (.stop (.inl rfl) (Path.skip_run _)))
  have hfor : Exec (.forC [] (some .literal) [] [.expr (.call "poll" [] [.name "r"])])
      [⟨resource, false⟩] .normal [⟨resource, false⟩] _ :=
    ⟨_, Path.seq_run (Path.skip_run _) hloop, rfl⟩
  refine ⟨_, _, Path.seq_run openResource_run (Path.seq_run hfor (sinkResource_run false)), ?_⟩
  intro before now h
  simp [cutBack, Vars.cut] at h
  obtain ⟨rfl, rfl⟩ := h
  rfl

theorem pollThenSink_clean : Accepted [] [] pollThenSink ∧ Covered [] [] pollThenSink ∧
    ∃ r t, ExecAll pollThenSink (atEntry [] []) .normal r t ∧ Steady t ∧ Clean t := by
  have hacc : Accepted [] [] pollThenSink := by
    unfold Accepted
    decide
  have hcov : Covered [] [] pollThenSink := by
    unfold Covered
    decide
  obtain ⟨r, t, hrun, hsteady⟩ := pollThenSink_run
  exact ⟨hacc, hcov, r, t, hrun, hsteady, clean_of_steady hacc hcov hrun hsteady⟩

end Arche.Semantic
