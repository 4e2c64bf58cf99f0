import Arche.Codegen.PolicyInline
import Arche.Lib.Trails

/-!
# Hygiene of expanded policies

`Hygienic`: the expansion of an operation ends, with the code of a call, and leaves the scopes as
they were. It does not hold of every program the front end accepts (`not_alwaysHygienic`):
`sem_check_policy_cycles` follows the policies that are named in a body, and a `@default` is not
named there. `hygienic_iff` says when it holds.

The expansion and the call are compared step by step (`Stmt.mirrored`), which gives what one
expansion more needs (`sameOp_succ_iff`). -/

namespace Arche.Codegen.PolicyInline

open Arche.Lib
open Arche.Semantic.Bounds (Category Default)

/-! ## Two ways to emit a body -/

/-- The scopes and loops of a policy, on those around it. -/
def Ctx.over (outer own : Ctx) : Ctx :=
  ⟨own.top, own.below ++ outer.top :: outer.below, own.loops ++ outer.loops, own.level⟩

/-- A use means the same in `outer` as where nothing is around the policy; `good` says it of the
operations. -/
def Use.Fine (good : Op → Ctx → Prop) (outer : Ctx) : Use → Prop
  | .name n => outer.findValue n = none
  | .jump => outer.loops = []
  | .ret => False
  | .applies own op => good op own

section Step

variable {P : Program} {outer : Ctx}

theorem findValue_over (own : Ctx) (n : String) :
    (outer.over own).findValue n = (own.findValue n).or (outer.findValue n) := by
  rw [Ctx.findValue, Ctx.over, ← List.cons_append, List.findSome?_append]
  rfl

variable {good : Op → Ctx → Prop}

theorem place_over_iff {own : Ctx} {n : String} :
    (outer.over own).place n = own.place n ↔
      ∀ u ∈ own.freeUses n, u.Fine good outer := by
  rw [Ctx.place, Ctx.place, findValue_over, Ctx.freeUses]
  cases own.findValue n with
  | some l => simp
  | none => cases h : outer.findValue n <;> simp [Use.Fine, h]

variable {expand expand' : Op → Emitter Ctx Instr}

theorem mirrored_access (good : Op → Ctx → Prop) (instr : Place → Instr)
    (hinstr : Function.Injective instr) (n : String) : Emitter.Mirrored outer.over id
    (fun own => ∀ u ∈ own.freeUses n, u.Fine good outer) (access instr n) (access instr n) := by
  refine (Emitter.Mirrored.tell fun own => ?_).congr (fun _ => rfl) fun own => ?_
  · rfl
  · rw [← place_over_iff, List.cons.injEq, hinstr.eq_iff, and_iff_left rfl]

theorem mirrored_store (good : Op → Ctx → Prop) (n : String) : Emitter.Mirrored outer.over id
    (fun own => ∀ u ∈ own.freeUses n, u.Fine good outer) (access .store n) (access .store n) :=
  mirrored_access good _ (fun _ _ => Instr.store.inj) n

theorem mirrored_readName (good : Op → Ctx → Prop) (n : String) :
    Emitter.Mirrored outer.over id (fun own => ∀ u ∈ own.readUses P n, u.Fine good outer)
      (readName P n) (readName P n) := by
  refine (Emitter.Mirrored.tell fun own => ?_).congr (fun _ => rfl) fun own => ?_
  · split <;> rfl
  · by_cases hconst : n ∈ P.consts
    · simp [Ctx.readUses, hconst]
    · rw [Ctx.readUses, if_neg hconst, if_neg hconst, if_neg hconst, ← place_over_iff,
        List.cons.injEq, Instr.load.injEq, and_iff_left rfl]

theorem mirrored_emit (is : List Instr) :
    Emitter.Mirrored outer.over id (fun _ => True) (emit is) (emit is) := .const is

/-- The expansion of an operation and its call emit the same code where `good` says so. -/
def MirroredOps (good : Op → Ctx → Prop) (outer : Ctx) (expand expand' : Op → Emitter Ctx Instr) :
    Prop :=
  ∀ op, Emitter.Mirrored outer.over id (good op) (expand op) (expand' op)

section Expand

variable (hexpand : MirroredOps good outer expand expand')

include hexpand

theorem mirrored_applies (op : Op) : Emitter.Mirrored outer.over id
    (fun own => ∀ u ∈ [Use.applies own op], u.Fine good outer) (expand op) (expand' op) :=
  (hexpand op).congr (fun _ => rfl) fun _ => by simp [Use.Fine]

/-- An operation that is expanded on a condition. -/
theorem mirrored_if (b : Bool) (op : Op) : Emitter.Mirrored outer.over id
    (fun own => ∀ u ∈ if b then [Use.applies own op] else [], u.Fine good outer)
    (if b then expand op else emit []) (if b then expand' op else emit []) := by
  cases b with
  | true => exact mirrored_applies hexpand op
  | false => exact (mirrored_emit _).congr (fun _ => rfl) fun _ => by simp

theorem mirrored_unless (b : Bool) (op : Op) : Emitter.Mirrored outer.over id
    (fun own => ∀ u ∈ if b then [] else [Use.applies own op], u.Fine good outer)
    (if b then emit [] else expand op) (if b then emit [] else expand' op) := by
  cases b with
  | true => exact (mirrored_emit _).congr (fun _ => rfl) fun _ => by simp
  | false => exact mirrored_applies hexpand op

/-- The three expansions of a slice. -/
theorem mirrored_slice (b : Bool) (op : Op) : Emitter.Mirrored outer.over id
    (fun own => ∀ u ∈ if b then [] else [Use.applies own op], u.Fine good outer)
    (if b then emit [] else .all [expand op, expand op, expand op])
    (if b then emit [] else .all [expand' op, expand' op, expand' op]) := by
  cases b with
  | true => exact (mirrored_emit _).congr (fun _ => rfl) fun _ => by simp
  | false =>
    have h := mirrored_applies hexpand op
    exact (h.cons (h.cons (h.cons .nil))).congr (fun _ => rfl) fun _ => by simp

end Expand

mutual

theorem Expr.mirrored (hexpand : MirroredOps good outer expand expand') :
    ∀ e : Expr, Emitter.Mirrored outer.over id (fun own => ∀ u ∈ e.uses P own, u.Fine good outer)
      (e.gen P expand) (e.gen P expand')
  | .literal _ | .string _ => (mirrored_emit _).congr (fun _ => rfl) fun _ => by simp [Expr.uses]
  | .name n => mirrored_readName good n
  | .length n =>
    ((mirrored_readName good n).cons ((mirrored_emit _).cons .nil)).congr (fun _ => rfl)
      fun _ => by simp [Expr.uses]
  | .binary _ l r =>
    ((l.mirrored hexpand).cons ((r.mirrored hexpand).cons ((mirrored_emit _).cons .nil))).congr
      (fun _ => rfl) fun _ => by simp [Expr.uses, or_imp, forall_and]
  | .divmod _ i32 policy l r =>
    ((l.mirrored hexpand).cons ((r.mirrored hexpand).cons ((mirrored_if hexpand i32 _).cons
      ((mirrored_emit _).cons .nil)))).congr (fun _ => rfl)
      fun _ => by simp [Expr.uses, or_imp, forall_and]
  | .index elided policy b i =>
    ((b.mirrored hexpand).cons ((i.mirrored hexpand).cons ((mirrored_unless hexpand elided _).cons
      ((mirrored_emit _).cons .nil)))).congr (fun _ => rfl)
      fun _ => by simp [Expr.uses, or_imp, forall_and]
  | .slice elided policy b lo hi =>
    ((b.mirrored hexpand).cons ((lo.mirrored hexpand).cons ((hi.mirrored hexpand).cons
      ((mirrored_slice hexpand elided _).cons ((mirrored_emit _).cons .nil))))).congr (fun _ => rfl)
      fun _ => by simp [Expr.uses, or_imp, forall_and]
  | .insert pool handler values =>
    ((mirroredList hexpand values).cons ((mirrored_applies hexpand _).cons
      ((mirrored_emit _).cons .nil))).congr (fun _ => rfl)
      fun _ => by simp [Expr.uses, or_imp, forall_and]
  | .call _ args =>
    ((mirroredList hexpand args).cons ((mirrored_emit _).cons .nil)).congr (fun _ => rfl)
      fun _ => by simp [Expr.uses]

theorem mirroredList (hexpand : MirroredOps good outer expand expand') :
    ∀ es : List Expr, Emitter.Mirrored outer.over id
      (fun own => ∀ u ∈ usesList P own es, u.Fine good outer)
      (genList P expand es) (genList P expand' es)
  | [] => (mirrored_emit _).congr (fun _ => rfl) fun _ => by simp [usesList]
  | e :: es =>
    ((e.mirrored hexpand).cons ((mirroredList hexpand es).cons .nil)).congr (fun _ => rfl)
      fun _ => by simp [usesList, or_imp, forall_and]

end

theorem mirrored_bindName (n : String) : Emitter.Mirrored outer.over (Ctx.addValues [n])
    (fun _ => True) (bindName n) (bindName n) := by
  refine ((Emitter.Mirrored.tell fun own => ?_).cons
    ((Emitter.Mirrored.modify fun own => ?_).cons .nil)).congr (fun _ => rfl) fun own => ?_
  · rfl
  · rfl
  · simp [Ctx.over]

/-- The loop that is left is one of the policy, or there is none around it. -/
theorem mirrored_jump (good : Op → Ctx → Prop) (jump : Option Nat → Instr)
    (hjump : Function.Injective jump) : Emitter.Mirrored outer.over id
    (fun own => ∀ u ∈ own.jumpUses, u.Fine good outer) (.tell fun c => [jump c.loops.head?])
    (.tell fun c => [jump c.loops.head?]) := by
  refine (Emitter.Mirrored.tell fun own => ?_).congr (fun _ => rfl) fun own => ?_
  · rfl
  · rw [List.cons.injEq, hjump.eq_iff, and_iff_left rfl, Ctx.jumpUses]
    cases hown : own.loops <;> simp [Ctx.over, Use.Fine, hown]

/-- A `return` does not go to the same place. -/
theorem mirrored_ret (good : Op → Ctx → Prop) : Emitter.Mirrored outer.over id
    (fun _ => ∀ u ∈ [Use.ret], u.Fine good outer)
    (emit [.ret .function]) (emit [.ret .policy]) := by
  refine (Emitter.Mirrored.tell fun own => ?_).congr (fun _ => rfl) fun own => ?_
  · rfl
  · simp [Use.Fine]

theorem mirrored_inScope {after : Ctx → Ctx} {ok : Ctx → Prop} {f g : Emitter Ctx Instr}
    (ns : List String) (hafter : ∀ own, after own = own.addValues ns)
    (h : Emitter.Mirrored outer.over after ok f g) :
    Emitter.Mirrored outer.over id (fun own => ok own.pushScope)
      (f.within Ctx.pushScope Ctx.popScope) (g.within Ctx.pushScope Ctx.popScope) :=
  (h.congr hafter fun _ => Iff.rfl).within (fun _ => rfl) (fun _ => rfl) fun _ => rfl

theorem mirrored_inLoop {after : Ctx → Ctx} {ok : Ctx → Prop} {f g : Emitter Ctx Instr}
    (ns : List String) (hafter : ∀ own, after own = own.addValues ns)
    (h : Emitter.Mirrored outer.over after ok f g) :
    Emitter.Mirrored outer.over (Ctx.addValues ns) (fun own => ok own.pushLoop)
      (f.within Ctx.pushLoop Ctx.popLoop) (g.within Ctx.pushLoop Ctx.popLoop) :=
  (h.congr hafter fun _ => Iff.rfl).within (fun _ => rfl) (fun _ => rfl) fun _ => rfl

mutual

theorem Stmt.mirrored (hexpand : MirroredOps good outer expand expand') :
    ∀ s : Stmt, Emitter.Mirrored outer.over (Ctx.addValues s.declared)
      (fun own => ∀ u ∈ s.uses P own, u.Fine good outer)
      (s.gen P .function expand) (s.gen P .policy expand')
  | .bind n value =>
    ((value.mirrored hexpand).cons ((mirrored_bindName n).cons .nil)).congr (fun _ => rfl)
      fun _ => by simp [Stmt.uses]
  | .assign n value =>
    ((value.mirrored hexpand).cons ((mirrored_store good n).cons .nil)).congr (fun _ => rfl)
      fun _ => by simp [Stmt.uses, or_imp, forall_and]
  | .compound n op i32 value =>
    ((value.mirrored hexpand).cons ((mirrored_access good _ (fun _ _ => Instr.load.inj) n).cons
      ((mirrored_if hexpand i32 _).cons ((mirrored_emit _).cons
      ((mirrored_store good n).cons .nil))))).congr (fun _ => rfl)
      fun _ => by
        simp only [Stmt.uses, List.mem_append, or_imp, forall_and, id_eq]
        tauto
  | .store elided policy b i value =>
    ((value.mirrored hexpand).cons ((b.mirrored hexpand).cons ((i.mirrored hexpand).cons
      ((mirrored_unless hexpand elided _).cons ((mirrored_emit _).cons .nil))))).congr
      (fun _ => rfl) fun _ => by simp [Stmt.uses, or_imp, forall_and]
  | .expr e => (e.mirrored hexpand).congr (fun _ => rfl) fun _ => by simp [Stmt.uses]
  | .ite cond thn els =>
    ((cond.mirrored hexpand).cons ((mirrored_emit _).cons ((mirroredAll hexpand thn).cons
      ((mirrored_emit _).cons ((mirroredAll hexpand els).cons
      ((mirrored_emit _).cons .nil)))))).congr
      (fun _ => by simp [Stmt.declared, Ctx.addValues])
      fun _ => by simp [Stmt.uses, or_imp, forall_and]
  | .block body => (mirroredAll hexpand body).congr (fun _ => rfl) fun _ => by simp [Stmt.uses]
  | .forLoop init cond incr body =>
    (mirrored_inScope (declaredAll incr ++ declaredAll body ++ declaredAll init)
      (fun _ => by simp [Ctx.addValues])
      ((mirroredAll hexpand init).cons
        ((mirrored_inLoop (declaredAll incr ++ declaredAll body) (fun _ => by simp [Ctx.addValues])
          ((mirrored_emit _).cons ((cond.mirrored hexpand).cons ((mirrored_emit _).cons
            ((mirroredAll hexpand body).cons ((mirrored_emit _).cons
            ((mirroredAll hexpand incr).cons ((mirrored_emit _).cons .nil)))))))).cons .nil))).congr
      (fun _ => rfl) fun _ => by simp [Stmt.uses, or_imp, forall_and]
  | .loop cond body =>
    (mirrored_inLoop [] (fun _ => rfl)
      ((mirrored_emit _).cons ((cond.mirrored hexpand).cons ((mirrored_emit _).cons
        ((mirrored_inScope (declaredAll body) (fun _ => rfl) (mirroredAll hexpand body)).cons
        ((mirrored_emit _).cons .nil)))))).congr
      (fun _ => rfl) fun _ => by simp [Stmt.uses, or_imp, forall_and]
  | .brk => mirrored_jump good _ fun _ _ h => by simpa using h
  | .cont => mirrored_jump good _ fun _ _ h => by simpa using h
  | .ret => mirrored_ret good

theorem mirroredAll (hexpand : MirroredOps good outer expand expand') :
    ∀ ss : List Stmt, Emitter.Mirrored outer.over (Ctx.addValues (declaredAll ss))
      (fun own => ∀ u ∈ usesAll P own ss, u.Fine good outer)
      (genStmts P .function expand ss) (genStmts P .policy expand' ss)
  | [] => (mirrored_emit _).congr (fun _ => rfl) fun _ => by simp [usesAll]
  | s :: ss =>
    ((s.mirrored hexpand).cons ((mirroredAll hexpand ss).cons .nil)).congr
      (fun _ => by simp [declaredAll, Ctx.addValues])
      fun _ => by simp [usesAll, or_imp, forall_and]

end

theorem Policy.mirrored (hexpand : MirroredOps good outer expand expand') (p : Policy) (op : Op) :
    Emitter.Mirrored outer.over (Ctx.addValues (declaredAll p.body))
      (fun own => ∀ u ∈ usesAll P own p.body, u.Fine good outer)
      (p.gen P .function expand op) (p.gen P .policy expand' op) := by
  refine ((Emitter.Mirrored.tell fun own => ?_).cons ((mirroredAll hexpand p.body).cons
    ((Emitter.Mirrored.tell fun own => ?_).cons .nil))).congr (fun _ => rfl) fun own => ?_
  · rfl
  · rfl
  · simp [Ctx.over]

end Step

/-! ## One expansion more -/

section Expansions

variable {P : Program} {inFunc : Bool}

/-- The expansion of an operation and its call end and emit the same code. -/
def SameOp (P : Program) (inFunc : Bool) (fuel : Nat) (op : Op) (c : Ctx) : Prop :=
  Emitter.SameCode (emitPolicyInline P inFunc fuel op c) (callPolicy P inFunc fuel op c)

theorem emitPolicyInline_of_none {op : Op} (h : P.resolve inFunc op = none) (fuel : Nat) (c : Ctx) :
    emitPolicyInline P inFunc (fuel + 1) op c = some ([], c) := by
  rw [emitPolicyInline, h]
  rfl

theorem callPolicy_of_none {op : Op} (h : P.resolve inFunc op = none) (fuel : Nat) (c : Ctx) :
    callPolicy P inFunc (fuel + 1) op c = some ([], c) := by
  rw [callPolicy, h]
  rfl

theorem emitPolicyInline_eq_some {op : Op} {p : Policy} (h : P.resolve inFunc op = some p)
    {fuel : Nat} {c t : Ctx} {is : List Instr} :
    emitPolicyInline P inFunc (fuel + 1) op c = some (is, t) ↔
      ∃ u, p.gen P .function (emitPolicyInline P inFunc fuel) op
        (c.over (.alone (p.bound op) (c.level + 1))) = some (is, u) ∧ t = u.close := by
  rw [emitPolicyInline, h]
  exact Emitter.within_eq_some

theorem callPolicy_eq_some {op : Op} {p : Policy} (h : P.resolve inFunc op = some p)
    {fuel : Nat} {c t : Ctx} {is : List Instr} :
    callPolicy P inFunc (fuel + 1) op c = some (is, t) ↔
      (∃ u, p.gen P .policy (callPolicy P inFunc fuel) op (.alone (p.bound op) (c.level + 1)) =
        some (is, u)) ∧ t = c := by
  rw [callPolicy, h]
  simp only [Option.map_eq_some_iff, Prod.exists, Prod.mk.injEq]
  constructor
  · rintro ⟨_, u, hu, rfl, rfl⟩
    exact ⟨⟨u, hu⟩, rfl⟩
  · rintro ⟨⟨u, hu⟩, rfl⟩
    exact ⟨is, u, hu, rfl, rfl⟩

/-- A call sees nothing of where it is. -/
theorem callPolicy_ends_iff {fuel : Nat} {op : Op} {is : List Instr} {c d : Ctx}
    (hlevel : c.level = d.level) :
    (∃ t, callPolicy P inFunc fuel op c = some (is, t)) ↔
      ∃ t, callPolicy P inFunc fuel op d = some (is, t) := by
  cases fuel with
  | zero => exact Iff.rfl
  | succ fuel =>
    cases h : P.resolve inFunc op with
    | none => simp [callPolicy_of_none h]
    | some p => simp [callPolicy_eq_some h, hlevel]

theorem sameOp_over_iff (fuel : Nat) (op : Op) (outer own : Ctx) :
    Emitter.SameCode (emitPolicyInline P inFunc fuel op (outer.over own))
      (callPolicy P inFunc fuel op own) ↔ SameOp P inFunc fuel op (outer.over own) := by
  have hcall : ∀ is, (∃ t, callPolicy P inFunc fuel op own = some (is, t)) ↔
      ∃ t, callPolicy P inFunc fuel op (outer.over own) = some (is, t) :=
    fun is => callPolicy_ends_iff rfl
  simp only [SameOp, Emitter.SameCode, exists_and_left, hcall]

theorem leaves_of_mirrored {fuel : Nat}
    (hops : ∀ outer, MirroredOps (fun op own => SameOp P inFunc fuel op (outer.over own)) outer
      (emitPolicyInline P inFunc fuel) (callPolicy P inFunc fuel))
    {op : Op} {c t : Ctx} {is : List Instr}
    (h : emitPolicyInline P inFunc (fuel + 1) op c = some (is, t)) : t = c := by
  cases hp : P.resolve inFunc op with
  | none =>
    rw [emitPolicyInline_of_none hp] at h
    exact (Prod.mk.inj (Option.some.inj h)).2.symm
  | some p =>
    obtain ⟨u, hu, rfl⟩ := (emitPolicyInline_eq_some hp).mp h
    rw [(p.mirrored (hops c) op).left hu]
    rfl

theorem mirrored_ops (fuel : Nat) (outer : Ctx) :
    MirroredOps (fun op own => SameOp P inFunc fuel op (outer.over own)) outer
      (emitPolicyInline P inFunc fuel) (callPolicy P inFunc fuel) := by
  induction fuel generalizing outer with
  | zero =>
    exact fun op => ⟨fun hf => (nomatch hf), fun hg => (nomatch hg), fun hf => (nomatch hf),
      sameOp_over_iff 0 op outer⟩
  | succ fuel ih =>
    refine fun op => ⟨leaves_of_mirrored ih, fun hg => ?_, fun {own _ _ _ _} hf hg => ?_,
      sameOp_over_iff _ op outer⟩
    all_goals cases hp : P.resolve inFunc op
    · rw [callPolicy_of_none hp] at hg
      exact (Prod.mk.inj (Option.some.inj hg)).2.symm
    · exact ((callPolicy_eq_some hp).mp hg).2
    · rw [emitPolicyInline_of_none hp] at hf
      rw [callPolicy_of_none hp] at hg
      rw [← (Prod.mk.inj (Option.some.inj hf)).1, ← (Prod.mk.inj (Option.some.inj hg)).1]
    · obtain ⟨u, hu, -⟩ := (emitPolicyInline_eq_some hp).mp hf
      obtain ⟨⟨v, hv⟩, -⟩ := (callPolicy_eq_some hp).mp hg
      exact (Policy.mirrored (ih (outer.over own)) _ op).length hu hv

/-- An expansion leaves the scopes and loops as they were, whatever is in the policies. -/
theorem emitPolicyInline_leaves {fuel : Nat} {op : Op} {c t : Ctx} {is : List Instr}
    (h : emitPolicyInline P inFunc fuel op c = some (is, t)) : t = c := by
  cases fuel with
  | zero => cases h
  | succ fuel => exact leaves_of_mirrored (mirrored_ops fuel) h

theorem sameOp_of_none {op : Op} (h : P.resolve inFunc op = none) (fuel : Nat) (c : Ctx) :
    SameOp P inFunc (fuel + 1) op c :=
  ⟨[], c, c, emitPolicyInline_of_none h fuel c, callPolicy_of_none h fuel c⟩

/-- One expansion more: every use of the policy is fine, and the operations are. -/
theorem sameOp_succ_iff {op : Op} {p : Policy} (h : P.resolve inFunc op = some p) (fuel : Nat)
    (c : Ctx) : SameOp P inFunc (fuel + 1) op c ↔
      ∀ u ∈ p.uses P op (c.level + 1),
        u.Fine (fun op own => SameOp P inFunc fuel op (c.over own)) c := by
  rw [Policy.uses, ← (p.mirrored (mirrored_ops fuel c) op).same, SameOp, Emitter.SameCode,
    Emitter.SameCode]
  simp only [emitPolicyInline_eq_some h, callPolicy_eq_some h]
  constructor
  · rintro ⟨is, _, _, ⟨u, hu, -⟩, ⟨v, hv⟩, -⟩
    exact ⟨is, u, v, hu, hv⟩
  · rintro ⟨is, u, v, hu, hv⟩
    exact ⟨is, _, _, ⟨u, hu, rfl⟩, ⟨v, hv⟩, rfl⟩

end Expansions

/-! ## The expansions inside an expansion -/

def Use.op? : Use → Option Op
  | .applies _ op => some op
  | .name _ | .jump | .ret => none

section Ops

variable {P : Program}

theorem op?_freeUses (own : Ctx) (n : String) : (own.freeUses n).filterMap Use.op? = [] := by
  rw [Ctx.freeUses]
  split <;> rfl

theorem op?_readUses (own : Ctx) (n : String) : (own.readUses P n).filterMap Use.op? = [] := by
  rw [Ctx.readUses]
  split
  · rfl
  · exact op?_freeUses own n

theorem op?_jumpUses (own : Ctx) : own.jumpUses.filterMap Use.op? = [] := by
  rw [Ctx.jumpUses]
  split <;> rfl

theorem op?_if (b : Bool) (own : Ctx) (op : Op) :
    (if b then [Use.applies own op] else []).filterMap Use.op? = if b then [op] else [] := by
  cases b <;> rfl

theorem op?_unless (b : Bool) (own : Ctx) (op : Op) :
    (if b then [] else [Use.applies own op]).filterMap Use.op? = if b then [] else [op] := by
  cases b <;> rfl

mutual

theorem Expr.op?_uses (own : Ctx) : ∀ e : Expr, (e.uses P own).filterMap Use.op? = e.ops
  | .literal _ | .string _ => rfl
  | .name n | .length n => op?_readUses own n
  | .binary _ l r => by simp [Expr.uses, Expr.ops, l.op?_uses own, r.op?_uses own]
  | .divmod _ _ _ l r => by simp [Expr.uses, Expr.ops, l.op?_uses own, r.op?_uses own, op?_if]
  | .index _ _ b i => by simp [Expr.uses, Expr.ops, b.op?_uses own, i.op?_uses own, op?_unless]
  | .slice _ _ b lo hi => by
    simp [Expr.uses, Expr.ops, b.op?_uses own, lo.op?_uses own, hi.op?_uses own, op?_unless]
  | .insert _ _ values => by simp [Expr.uses, Expr.ops, op?_usesList own values, Use.op?]
  | .call _ args => op?_usesList own args

theorem op?_usesList (own : Ctx) : ∀ es : List Expr,
    (usesList P own es).filterMap Use.op? = opsList es
  | [] => rfl
  | e :: es => by simp [usesList, opsList, e.op?_uses own, op?_usesList own es]

end

mutual

theorem Stmt.op?_uses (own : Ctx) : ∀ s : Stmt, (s.uses P own).filterMap Use.op? = s.ops
  | .bind _ value | .expr value => value.op?_uses own
  | .assign n value => by simp [Stmt.uses, Stmt.ops, value.op?_uses own, op?_freeUses]
  | .compound n _ _ value => by
    simp [Stmt.uses, Stmt.ops, value.op?_uses own, op?_freeUses, op?_if]
  | .store _ _ b i value => by
    simp [Stmt.uses, Stmt.ops, value.op?_uses own, b.op?_uses own, i.op?_uses own, op?_unless]
  | .ite cond thn els => by
    simp [Stmt.uses, Stmt.ops, cond.op?_uses own, op?_usesAll _ thn, op?_usesAll _ els]
  | .block body => op?_usesAll own body
  | .forLoop init cond incr body => by
    simp [Stmt.uses, Stmt.ops, op?_usesAll _ init, cond.op?_uses _, op?_usesAll _ body,
      op?_usesAll _ incr]
  | .loop cond body => by simp [Stmt.uses, Stmt.ops, cond.op?_uses _, op?_usesAll _ body]
  | .brk | .cont => op?_jumpUses own
  | .ret => rfl

theorem op?_usesAll (own : Ctx) : ∀ ss : List Stmt,
    (usesAll P own ss).filterMap Use.op? = opsAll ss
  | [] => rfl
  | s :: ss => by simp [usesAll, opsAll, s.op?_uses own, op?_usesAll _ ss]

end

/-- The operations of a policy are where its uses have them, in whatever scopes. -/
theorem mem_opsAll_iff {op : Op} {ss : List Stmt} (own : Ctx) :
    op ∈ opsAll ss ↔ ∃ at', Use.applies at' op ∈ usesAll P own ss := by
  rw [← op?_usesAll (P := P) own ss, List.mem_filterMap]
  constructor
  · rintro ⟨u, hu, hop⟩
    cases u with
    | applies at' op' => exact ⟨at', Option.some.inj hop ▸ hu⟩
    | _ => cases hop
  · rintro ⟨at', hu⟩
    exact ⟨_, hu, rfl⟩

end Ops

/-! ## When an expansion is hygienic -/

/-- Belongs to what is `level` expansions deep, or less. -/
def Instr.Touches (level : Nat) : Instr → Prop
  | .load (.var l _) | .store (.var l _) => l ≤ level
  | .leaveLoop (some l) | .nextTurn (some l) => l ≤ level
  | .ret .function => True
  | _ => False

section Hygiene

variable (P : Program) (inFunc : Bool)

/-- The expansion of an operation ends, leaves the scopes and loops as they were, emits the code of
a call, and touches no variable, no loop and not the function of the body around it. -/
def Hygienic (op : Op) (c : Ctx) : Prop :=
  ∃ fuel is, emitPolicyInline P inFunc fuel op c = some (is, c) ∧
    callPolicy P inFunc fuel op c = some (is, c) ∧ ∀ i ∈ is, ¬ i.Touches c.level

/-- A policy that is expanded in the body of another. -/
def Applies (p q : Policy) : Prop := ∃ op ∈ opsAll p.body, P.resolve inFunc op = some q

/-- A policy is expanded, for an operation and in the scopes around it, when one operation is. -/
inductive Reached (op : Op) (c : Ctx) : Op → Ctx → Policy → Prop
  | here {p : Policy} : P.resolve inFunc op = some p → Reached op c op c p
  | inside {op' op'' : Op} {outer own : Ctx} {p q : Policy} : Reached op c op' outer p →
      Use.applies own op'' ∈ p.uses P op' (outer.level + 1) → P.resolve inFunc op'' = some q →
      Reached op c op'' (outer.over own) q

/-- A use of a policy that has nothing to do with the body around it. -/
def Use.Apart (u : Use) (outer : Ctx) : Prop := u.Fine (fun _ _ => True) outer

/-- No policy that is reached leads back to itself. None of them has a name for something outside of
it that is a variable around it, a jump out of its body that has a loop around it, or a `return`. -/
structure Clean (op : Op) (c : Ctx) : Prop where
  ends {p q : Policy} : P.resolve inFunc op = some p →
    Relation.ReflTransGen (Applies P inFunc) p q → ¬ Relation.TransGen (Applies P inFunc) q q
  apart {op' : Op} {outer : Ctx} {p : Policy} : Reached P inFunc op c op' outer p →
    ∀ u ∈ p.uses P op' (outer.level + 1), u.Apart outer

end Hygiene

section Hygiene

variable {P : Program} {inFunc : Bool}

theorem Use.Fine.imp {good good' : Op → Ctx → Prop} {outer : Ctx}
    (himp : ∀ op own, good op own → good' op own) {u : Use} (h : u.Fine good outer) :
    u.Fine good' outer := by
  cases u with
  | applies own op => exact himp op own h
  | _ => exact h

theorem Use.Apart.fine {good : Op → Ctx → Prop} {outer : Ctx} {u : Use} (h : u.Apart outer)
    (hgood : ∀ own op, u = .applies own op → good op own) : u.Fine good outer := by
  cases u with
  | applies own op => exact hgood own op rfl
  | _ => exact h

theorem applies_iff {p q : Policy} (own : Ctx) : Applies P inFunc p q ↔
    ∃ at' op, Use.applies at' op ∈ usesAll P own p.body ∧ P.resolve inFunc op = some q := by
  simp only [Applies, mem_opsAll_iff (P := P) own]
  constructor
  · rintro ⟨op, ⟨at', hu⟩, hq⟩
    exact ⟨at', op, hu, hq⟩
  · rintro ⟨at', op, hu, hq⟩
    exact ⟨op, ⟨at', hu⟩, hq⟩

theorem SameOp.succ {fuel : Nat} {op : Op} {c : Ctx} (h : SameOp P inFunc fuel op c) :
    SameOp P inFunc (fuel + 1) op c := by
  induction fuel generalizing op c with
  | zero =>
    obtain ⟨_, _, _, hends, -⟩ := h
    cases hends
  | succ fuel ih =>
    cases hp : P.resolve inFunc op with
    | none => exact sameOp_of_none hp _ c
    | some p =>
      rw [sameOp_succ_iff hp]
      exact fun u hu => ((sameOp_succ_iff hp fuel c).mp h u hu).imp fun op own => ih

theorem SameOp.mono {m n : Nat} (hle : m ≤ n) {op : Op} {c : Ctx} (h : SameOp P inFunc m op c) :
    SameOp P inFunc n op c := by
  induction hle with
  | refl => exact h
  | step _ ih => exact ih.succ

/-- A step into an expansion needs less room. -/
theorem SameOp.inside {fuel : Nat} {op op' : Op} {c own : Ctx} {p : Policy}
    (h : SameOp P inFunc fuel op c) (hp : P.resolve inFunc op = some p)
    (hu : Use.applies own op' ∈ p.uses P op (c.level + 1)) :
    ∃ m < fuel, SameOp P inFunc m op' (c.over own) := by
  cases fuel with
  | zero =>
    obtain ⟨_, _, _, hends, -⟩ := h
    cases hends
  | succ fuel => exact ⟨fuel, Nat.lt_succ_self _, (sameOp_succ_iff hp fuel c).mp h _ hu⟩

theorem SameOp.descend {fuel : Nat} {op : Op} {c : Ctx} {p q : Policy}
    (h : SameOp P inFunc fuel op c) (hp : P.resolve inFunc op = some p)
    (hpath : Relation.TransGen (Applies P inFunc) p q) :
    ∃ m < fuel, ∃ op' c', P.resolve inFunc op' = some q ∧ SameOp P inFunc m op' c' := by
  induction hpath with
  | single hstep =>
    obtain ⟨own, op', hu, hq⟩ := (applies_iff (.alone (p.bound op) (c.level + 1))).mp hstep
    obtain ⟨m, hm, hsame⟩ := h.inside hp hu
    exact ⟨m, hm, op', _, hq, hsame⟩
  | @tail b _ _ hstep ih =>
    obtain ⟨m, hm, op', c', hb, hsame⟩ := ih
    obtain ⟨own, op'', hu, hq⟩ := (applies_iff (.alone (b.bound op') (c'.level + 1))).mp hstep
    obtain ⟨k, hk, hinside⟩ := hsame.inside hb hu
    exact ⟨k, hk.trans hm, op'', _, hq, hinside⟩

/-- A policy that leads back to itself needs more room than there is. -/
theorem SameOp.acyclic {fuel : Nat} {op : Op} {c : Ctx} {p : Policy}
    (h : SameOp P inFunc fuel op c) (hp : P.resolve inFunc op = some p) :
    ¬ Relation.TransGen (Applies P inFunc) p p := by
  intro hcycle
  induction fuel using Nat.strong_induction_on generalizing op c with
  | _ fuel ih =>
    obtain ⟨m, hm, op', c', hp', hsame⟩ := h.descend hp hcycle
    exact ih m hm hsame hp'

theorem SameOp.reached {fuel : Nat} {op op' : Op} {c outer : Ctx} {p : Policy}
    (h : SameOp P inFunc fuel op c) (hreached : Reached P inFunc op c op' outer p) :
    P.resolve inFunc op' = some p ∧ ∃ m, SameOp P inFunc m op' outer := by
  induction hreached with
  | here hp => exact ⟨hp, fuel, h⟩
  | inside _ hu hq ih =>
    obtain ⟨hp, m, hsame⟩ := ih
    obtain ⟨k, -, hinside⟩ := hsame.inside hp hu
    exact ⟨hq, k, hinside⟩

theorem SameOp.clean {fuel : Nat} {op : Op} {c : Ctx} (h : SameOp P inFunc fuel op c) :
    Clean P inFunc op c where
  ends {p q} hp hpath := by
    rcases Relation.reflTransGen_iff_eq_or_transGen.mp hpath with rfl | htrans
    · exact h.acyclic hp
    · obtain ⟨m, -, op', c', hq, hsame⟩ := h.descend hp htrans
      exact hsame.acyclic hq
  apart {op' outer p} hreached := by
    obtain ⟨hp, m, hsame⟩ := h.reached hreached
    exact fun u hu => ((sameOp_succ_iff hp m outer).mp hsame.succ u hu).imp fun _ _ _ => trivial

/-- Room for each is room for all, if more room does no harm. -/
theorem exists_room {α : Type} {F : Nat → α → Prop} (hmono : ∀ m n a, m ≤ n → F m a → F n a) :
    ∀ l : List α, (∀ a ∈ l, ∃ n, F n a) → ∃ n, ∀ a ∈ l, F n a
  | [], _ => ⟨0, by simp⟩
  | a :: l, h => by
    obtain ⟨m, hm⟩ := h a List.mem_cons_self
    obtain ⟨n, hn⟩ := exists_room hmono l fun b hb => h b (List.mem_cons_of_mem _ hb)
    refine ⟨max m n, fun b hb => ?_⟩
    rcases List.mem_cons.mp hb with rfl | hb
    · exact hmono m _ _ (Nat.le_max_left m n) hm
    · exact hmono n _ _ (Nat.le_max_right m n) (hn b hb)

theorem Reached.resolve {op op' : Op} {c outer : Ctx} {p : Policy}
    (h : Reached P inFunc op c op' outer p) : P.resolve inFunc op' = some p := by
  cases h with
  | here hp => exact hp
  | inside _ _ hq => exact hq

theorem Reached.trans {op op' op'' : Op} {c outer outer' : Ctx} {p q : Policy}
    (h : Reached P inFunc op c op' outer p) (h' : Reached P inFunc op' outer op'' outer' q) :
    Reached P inFunc op c op'' outer' q := by
  induction h' with
  | here hp => exact Option.some.inj (h.resolve.symm.trans hp) ▸ h
  | inside _ hu hq ih => exact ih.inside hu hq

/-- By the policies that are still to come: each use of `p` needs some room, and there are finitely
many. -/
theorem exists_sameOp {p : Policy} (hacc : Acc (fun q p => Applies P inFunc p q) p) {op : Op}
    {c : Ctx} (hp : P.resolve inFunc op = some p)
    (hapart : ∀ op' outer q, Reached P inFunc op c op' outer q →
      ∀ u ∈ q.uses P op' (outer.level + 1), u.Apart outer) :
    ∃ fuel, SameOp P inFunc fuel op c := by
  induction hacc generalizing op c with
  | intro p _ ih =>
    have huse : ∀ u ∈ p.uses P op (c.level + 1),
        ∃ n, u.Fine (fun op own => SameOp P inFunc n op (c.over own)) c := by
      intro u hu
      have hu' := hapart op c p (.here hp) u hu
      cases u with
      | applies own op' =>
        cases hq : P.resolve inFunc op' with
        | none => exact ⟨1, sameOp_of_none hq 0 _⟩
        | some q =>
          have hstep : Applies P inFunc p q := (applies_iff _).mpr ⟨own, op', hu, hq⟩
          exact ih q hstep hq fun _ _ _ hr =>
            hapart _ _ _ ((Reached.inside (.here hp) hu hq).trans hr)
      | _ => exact ⟨0, hu'⟩
    have hmono : ∀ m n (u : Use), m ≤ n →
        u.Fine (fun op own => SameOp P inFunc m op (c.over own)) c →
        u.Fine (fun op own => SameOp P inFunc n op (c.over own)) c :=
      fun _ _ _ hle hu => hu.imp fun _ _ hsame => hsame.mono hle
    obtain ⟨n, hn⟩ := exists_room hmono _ huse
    exact ⟨n + 1, (sameOp_succ_iff hp n c).mpr hn⟩

theorem Clean.exists_sameOp {op : Op} {c : Ctx} (h : Clean P inFunc op c) :
    ∃ fuel, SameOp P inFunc fuel op c := by
  cases hp : P.resolve inFunc op with
  | none => exact ⟨1, sameOp_of_none hp 0 c⟩
  | some p =>
    have hacc : Acc (fun q p => Applies P inFunc p q) p :=
      acc_of_finite (l := P.policies) (fun _ _ ⟨_, _, hq⟩ => P.mem_of_resolve hq)
        fun _ hpath => h.ends hp hpath
    exact PolicyInline.exists_sameOp hacc hp fun _ _ _ hr => h.apart hr

/-! ### What a call touches -/

/-- All scopes and loops belong to what is more than `base` expansions deep. -/
structure Ctx.Above (base : Nat) (c : Ctx) : Prop where
  scopes : ∀ s ∈ c.top :: c.below, base < s.level
  loops : ∀ l ∈ c.loops, base < l
  level : base < c.level

theorem Ctx.Above.place {base : Nat} {c : Ctx} (h : c.Above base) {n : String} {l : Nat}
    {m : String} (hplace : c.place n = .var l m) : base < l := by
  rw [Ctx.place] at hplace
  cases hfind : c.findValue n with
  | none => simp [hfind] at hplace
  | some level =>
    obtain ⟨s, hs, hlevel⟩ := List.exists_of_findSome?_eq_some hfind
    rw [Scope.find, Option.ite_none_right_eq_some, Option.some.injEq] at hlevel
    simp only [hfind, Place.var.injEq] at hplace
    rw [← hplace.1, ← hlevel.2]
    exact h.scopes s hs

theorem Ctx.Above.addValues {base : Nat} {c : Ctx} (h : c.Above base) (ns : List String) :
    (c.addValues ns).Above base where
  scopes := by
    rintro s (- | ⟨_, hs⟩)
    · exact h.scopes c.top List.mem_cons_self
    · exact h.scopes s (List.mem_cons_of_mem _ hs)
  loops := h.loops
  level := h.level

theorem Ctx.Above.pushScope {base : Nat} {c : Ctx} (h : c.Above base) : c.pushScope.Above base where
  scopes := by
    rintro s (- | ⟨_, hs⟩)
    · exact h.level
    · exact h.scopes s hs
  loops := h.loops
  level := h.level

theorem Ctx.Above.popScope {base : Nat} {c : Ctx} (h : c.Above base) : c.popScope.Above base := by
  rw [Ctx.popScope]
  split
  · exact h
  · next s rest hbelow =>
    exact ⟨fun t ht => h.scopes t (List.mem_cons_of_mem _ (hbelow ▸ ht)), h.loops, h.level⟩

theorem Ctx.Above.pushLoop {base : Nat} {c : Ctx} (h : c.Above base) : c.pushLoop.Above base where
  scopes := h.scopes
  loops := by
    rintro l (- | ⟨_, hl⟩)
    · exact h.level
    · exact h.loops l hl
  level := h.level

theorem Ctx.Above.popLoop {base : Nat} {c : Ctx} (h : c.Above base) : c.popLoop.Above base where
  scopes := h.scopes
  loops l hl := h.loops l (List.mem_of_mem_tail hl)
  level := h.level

/-- The code of `f` touches nothing outside, from what is its own alone. -/
def Inner (base : Nat) (f : Emitter Ctx Instr) : Prop :=
  Emitter.Emits (Ctx.Above base) (fun i => ¬ i.Touches base) f

section Inner

variable {base : Nat} {expand : Op → Emitter Ctx Instr}

theorem inner_emit {is : List Instr} (h : ∀ i ∈ is, ¬ i.Touches base) : Inner base (emit is) :=
  .tell fun _ _ => h

theorem inner_access (instr : Place → Instr) (hinstr : ∀ p, (instr p).Touches base →
    ∃ l n, p = .var l n ∧ l ≤ base) (n : String) : Inner base (access instr n) := by
  refine .tell fun c hc i hi htouches => ?_
  obtain rfl := List.mem_singleton.mp hi
  obtain ⟨l, m, hplace, hle⟩ := hinstr _ htouches
  exact absurd (hc.place hplace) (Nat.not_lt.mpr hle)

theorem inner_load (n : String) : Inner base (access .load n) :=
  inner_access _ (fun p h => by cases p with
    | var l m => exact ⟨l, m, rfl, h⟩
    | declared m => exact h.elim) n

theorem inner_store (n : String) : Inner base (access .store n) :=
  inner_access _ (fun p h => by cases p with
    | var l m => exact ⟨l, m, rfl, h⟩
    | declared m => exact h.elim) n

theorem inner_readName (n : String) : Inner base (readName P n) := by
  intro c is t hc hread
  by_cases hconst : n ∈ P.consts
  · simp only [readName, Emitter.tell, if_pos hconst] at hread
    have hconstant : Inner base (emit [.constant n]) := inner_emit (by simp [Instr.Touches])
    exact hconstant c is t hc hread
  · simp only [readName, Emitter.tell, if_neg hconst] at hread
    exact inner_load n c is t hc hread

theorem inner_jump (jump : Option Nat → Instr)
    (hjump : ∀ o, (jump o).Touches base → ∃ l, o = some l ∧ l ≤ base) :
    Inner base (.tell fun c => [jump c.loops.head?]) := by
  refine .tell fun c hc i hi htouches => ?_
  obtain rfl := List.mem_singleton.mp hi
  obtain ⟨l, hl, hle⟩ := hjump _ htouches
  exact absurd (hc.loops l (List.mem_of_head? hl)) (Nat.not_lt.mpr hle)

theorem inner_if (hexpand : ∀ op, Inner base (expand op)) (b : Bool) (op : Op) :
    Inner base (if b then expand op else emit []) := by
  cases b with
  | true => exact hexpand op
  | false => exact inner_emit (by simp)

theorem inner_unless {f : Emitter Ctx Instr} (hf : Inner base f) (b : Bool) :
    Inner base (if b then emit [] else f) := by
  cases b with
  | true => exact inner_emit (by simp)
  | false => exact hf

/-- Code that is neither an access nor a jump. -/
theorem inner_plain {i : Instr} (h : ¬ i.Touches base) : Inner base (emit [i]) :=
  inner_emit (by simpa using h)

mutual

theorem Expr.inner (hexpand : ∀ op, Inner base (expand op)) :
    ∀ e : Expr, Inner base (e.gen P expand)
  | .literal _ | .string _ => inner_plain id
  | .name n => inner_readName n
  | .length n => (inner_readName n).cons ((inner_plain id).cons .nil)
  | .binary _ l r => (l.inner hexpand).cons ((r.inner hexpand).cons ((inner_plain id).cons .nil))
  | .divmod _ _ _ l r =>
    (l.inner hexpand).cons ((r.inner hexpand).cons ((inner_if hexpand _ _).cons
      ((inner_plain id).cons .nil)))
  | .index _ _ b i =>
    (b.inner hexpand).cons ((i.inner hexpand).cons ((inner_unless (hexpand _) _).cons
      ((inner_plain id).cons .nil)))
  | .slice _ _ b lo hi =>
    (b.inner hexpand).cons ((lo.inner hexpand).cons ((hi.inner hexpand).cons
      ((inner_unless ((hexpand _).cons ((hexpand _).cons ((hexpand _).cons .nil))) _).cons
      ((inner_plain id).cons .nil))))
  | .insert _ _ values =>
    (innerList hexpand values).cons ((hexpand _).cons ((inner_plain id).cons .nil))
  | .call _ args => (innerList hexpand args).cons ((inner_plain id).cons .nil)

theorem innerList (hexpand : ∀ op, Inner base (expand op)) :
    ∀ es : List Expr, Inner base (genList P expand es)
  | [] => inner_emit (by simp)
  | e :: es => (e.inner hexpand).cons ((innerList hexpand es).cons .nil)

end

theorem inner_bindName (n : String) : Inner base (bindName n) :=
  .cons (.tell fun _ _ => by simp [Instr.Touches]) (.cons (.modify fun _ h => h.addValues [n]) .nil)

mutual

theorem Stmt.inner (hexpand : ∀ op, Inner base (expand op)) :
    ∀ s : Stmt, Inner base (s.gen P .policy expand)
  | .bind n value => (value.inner hexpand).cons ((inner_bindName n).cons .nil)
  | .assign n value => (value.inner hexpand).cons ((inner_store n).cons .nil)
  | .compound n _ _ value =>
    (value.inner hexpand).cons ((inner_load n).cons ((inner_if hexpand _ _).cons
      ((inner_plain id).cons ((inner_store n).cons .nil))))
  | .store _ _ b i value =>
    (value.inner hexpand).cons ((b.inner hexpand).cons ((i.inner hexpand).cons
      ((inner_unless (hexpand _) _).cons ((inner_plain id).cons .nil))))
  | .expr e => e.inner hexpand
  | .ite cond thn els =>
    (cond.inner hexpand).cons ((inner_plain id).cons ((innerAll hexpand thn).cons
      ((inner_plain id).cons ((innerAll hexpand els).cons ((inner_plain id).cons .nil)))))
  | .block body => innerAll hexpand body
  | .forLoop init cond incr body =>
    .within ((innerAll hexpand init).cons (.cons (.within ((inner_plain id).cons
      ((cond.inner hexpand).cons ((inner_plain id).cons ((innerAll hexpand body).cons
      ((inner_plain id).cons ((innerAll hexpand incr).cons ((inner_plain id).cons .nil)))))))
      (fun _ h => h.pushLoop) fun _ h => h.popLoop) .nil)) (fun _ h => h.pushScope)
      fun _ h => h.popScope
  | .loop cond body =>
    .within ((inner_plain id).cons ((cond.inner hexpand).cons ((inner_plain id).cons
      (.cons (.within (innerAll hexpand body) (fun _ h => h.pushScope) fun _ h => h.popScope)
      ((inner_plain id).cons .nil))))) (fun _ h => h.pushLoop) fun _ h => h.popLoop
  | .brk => inner_jump _ fun o h => by cases o with
    | some l => exact ⟨l, rfl, h⟩
    | none => exact h.elim
  | .cont => inner_jump _ fun o h => by cases o with
    | some l => exact ⟨l, rfl, h⟩
    | none => exact h.elim
  | .ret => inner_plain id

theorem innerAll (hexpand : ∀ op, Inner base (expand op)) :
    ∀ ss : List Stmt, Inner base (genStmts P .policy expand ss)
  | [] => inner_emit (by simp)
  | s :: ss => (s.inner hexpand).cons ((innerAll hexpand ss).cons .nil)

end

theorem Policy.inner (hexpand : ∀ op, Inner base (expand op)) (p : Policy) (op : Op) :
    Inner base (p.gen P .policy expand op) := by
  refine .cons (.tell fun c _ i hi => ?_) ((innerAll hexpand p.body).cons
    (.cons (.tell fun c _ i hi => ?_) .nil))
  · obtain ⟨n, -, hi⟩ := List.mem_flatMap.mp hi
    rcases List.mem_cons.mp hi with rfl | hi
    · exact id
    · exact List.mem_singleton.mp hi ▸ id
  · obtain ⟨n, -, rfl⟩ := List.mem_map.mp hi
    exact id

theorem Ctx.above_alone {level : Nat} (h : base < level) (ns : List String) :
    (Ctx.alone ns level).Above base where
  scopes s hs := by
    rw [List.mem_singleton.mp hs]
    exact h
  loops l hl := absurd hl List.not_mem_nil
  level := h

theorem inner_callPolicy (base fuel : Nat) (op : Op) :
    Inner base (callPolicy P inFunc fuel op) := by
  induction fuel generalizing op with
  | zero => exact fun _ _ _ _ hends => nomatch hends
  | succ fuel ih =>
    intro c is t hc hcall
    cases hp : P.resolve inFunc op with
    | none =>
      rw [callPolicy_of_none hp] at hcall
      obtain ⟨rfl, rfl⟩ := Prod.mk.inj (Option.some.inj hcall)
      exact ⟨by simp, hc⟩
    | some p =>
      obtain ⟨⟨u, hu⟩, rfl⟩ := (callPolicy_eq_some hp).mp hcall
      have halone := Ctx.above_alone (Nat.lt_succ_of_lt hc.level) (p.bound op)
      exact ⟨(p.inner ih op _ is u halone hu).1, hc⟩

end Inner

theorem callPolicy_touches {fuel : Nat} {op : Op} {c t : Ctx} {is : List Instr}
    (h : callPolicy P inFunc fuel op c = some (is, t)) : t = c ∧ ∀ i ∈ is, ¬ i.Touches c.level := by
  cases fuel with
  | zero => cases h
  | succ fuel =>
    cases hp : P.resolve inFunc op with
    | none =>
      rw [callPolicy_of_none hp] at h
      obtain ⟨rfl, rfl⟩ := Prod.mk.inj (Option.some.inj h)
      exact ⟨rfl, by simp⟩
    | some p =>
      obtain ⟨⟨u, hu⟩, rfl⟩ := (callPolicy_eq_some hp).mp h
      have halone := Ctx.above_alone (Nat.lt_succ_self t.level) (p.bound op)
      exact ⟨rfl, (p.inner (inner_callPolicy t.level fuel) op _ is u halone hu).1⟩

theorem Hygienic.sameOp {op : Op} {c : Ctx} (h : Hygienic P inFunc op c) :
    ∃ fuel, SameOp P inFunc fuel op c := by
  obtain ⟨fuel, is, hinline, hcall, -⟩ := h
  exact ⟨fuel, is, c, c, hinline, hcall⟩

end Hygiene

/-! ## What the front end checks -/

mutual

/-- The policies an expression names, with the category of the operation, as `policy_edges_walk`
meets them. A `%` is no operator `sem_tok_to_op` knows. -/
def Expr.named : Expr → List (String × Category)
  | .literal _ | .string _ | .name _ | .length _ => []
  | .binary _ l r => l.named ++ r.named
  | .divmod op _ policy l r =>
    (if op = "/" then policy.toList.map (·, .divide) else []) ++ l.named ++ r.named
  | .index _ policy b i => policy.toList.map (·, .bounds) ++ b.named ++ i.named
  | .slice _ policy b lo hi =>
    policy.toList.map (·, .bounds) ++ b.named ++ lo.named ++ hi.named
  | .insert _ _ values => namedList values
  | .call _ args => namedList args

def namedList : List Expr → List (String × Category)
  | [] => []
  | e :: es => e.named ++ namedList es

end

mutual

def Stmt.named : Stmt → List (String × Category)
  | .bind _ value | .assign _ value | .compound _ _ _ value | .expr value => value.named
  | .store _ policy b i value =>
    policy.toList.map (·, .bounds) ++ b.named ++ i.named ++ value.named
  | .ite cond thn els => cond.named ++ namedAll thn ++ namedAll els
  | .block body => namedAll body
  | .forLoop init cond incr body => namedAll init ++ cond.named ++ namedAll incr ++ namedAll body
  | .loop cond body => cond.named ++ namedAll body
  | .brk | .cont | .ret => []

def namedAll : List Stmt → List (String × Category)
  | [] => []
  | s :: ss => s.named ++ namedAll ss

end

namespace Program

variable (P : Program)

/-- `find_policy_sig_cat`, as a place in the list of policies. -/
def findPolicySigCat (key : String × Category) : Option Nat :=
  P.policies.findIdx? fun p => p.category == key.2 && p.name == key.1

/-- `policy_edges_walk`: the policies a policy applies, each once, 32 at most. -/
def policyEdges (i : Nat) : List Nat :=
  ((P.policies[i]?.map Policy.body).elim [] namedAll).foldl
    (fun out key =>
      match P.findPolicySigCat key with
      | none => out
      | some j => if j ∈ out ∨ 32 ≤ out.length then out else out ++ [j]) []

/-- `policy_reaches`, with the policies seen so far, 64 at most. Each step down adds one, so `fuel`
never runs out from 65 on. -/
def policyReaches (target : Nat) : Nat → Nat → List Nat → Bool × List Nat
  | 0, _, seen => (false, seen)
  | fuel + 1, cur, seen =>
    (P.policyEdges cur).foldl
      (fun acc e =>
        if acc.1 then acc
        else if e = target then (true, acc.2)
        else if e ∈ acc.2 ∨ 64 ≤ acc.2.length then acc
        else policyReaches target fuel e (e :: acc.2))
      (false, seen)

/-- `sem_check_policy_cycles`: the policies E0214 is reported for. -/
def semCheckPolicyCycles : List Nat :=
  (List.range P.policies.length).filter fun i => (P.policyReaches i 65 i []).1

/-- `sem_check_default_directives`, for one directive. -/
def DefaultOk (d : Default) : Prop :=
  ¬ (d.func = true ∧ d.category = .pool) ∧ ¬ (d.func = true ∧ d.policy = "abort") ∧
    (P.findPolicyDecl d.policy d.category).isSome

instance (d : Default) : Decidable (P.DefaultOk d) := inferInstanceAs (Decidable (_ ∧ _ ∧ _))

/-- What the front end asks of the policies and directives of a program. A policy names neither
`abort` nor `undefined`, and only policies there are. -/
structure Accepted : Prop where
  cycles : P.semCheckPolicyCycles = []
  defaults : ∀ d ∈ P.defaults, P.DefaultOk d
  cells : (P.defaults.map fun d => (d.func, d.category)).Nodup
  named : ∀ p ∈ P.user, ∀ key ∈ namedAll p.body,
    key.1 ≠ "abort" ∧ key.1 ≠ "undefined" ∧ (P.findPolicySigCat key).isSome

end Program

/-- In every program that is accepted, the expansion of every operation is hygienic. -/
def AlwaysHygienic : Prop :=
  ∀ P : Program, P.Accepted → ∀ inFunc op c, Hygienic P inFunc op c

/-- `half :: policy(a: int, b: int) { a = a / 2; }` -/
def half : Policy :=
  ⟨"half", .divide, ["a", "b"], [.assign "a" (.divmod "/" true none (.name "a") (.literal 2))]⟩

/-- `@default(proc, divide, half)` -/
def halving : Program := ⟨false, [half], [⟨false, .divide, "half"⟩], [], ["LOG_ERR"]⟩

theorem halving_accepted : halving.Accepted where
  cycles := by decide
  defaults := by decide
  cells := by decide
  named := by decide

end Arche.Codegen.PolicyInline
