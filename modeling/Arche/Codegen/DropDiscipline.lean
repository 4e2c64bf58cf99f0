import Arche.Codegen.Drops

/-!
# Bodies whose destructors run once

`tidy` reads a body once, in the order of the text, and keeps at every point the
locals that hold a value on the paths to it (`held`) beside the tracked locals that
are declared further up and moved nowhere further up (`pending`). It accepts a body
when

* a local is named only while it holds a value, and stored into only while it holds
  none;
* both arms of an `if` leave the same locals holding a value, and a loop leaves at
  every `break`, `continue` and round those it found;
* at a `return` and at the end of the body of a function, of a `for` without clauses
  or of a fan, what is held is what is pending, and a returned value names a local
  that holds a value only by being it;
* a block, an arm of an `if` and the body of a `for` with clauses have nothing
  pending and nothing held of their own at their end;
* no statement follows a `return`, `break` or `continue` in its list, and a `for`
  without clauses whose body ends in a `return` is not the last label before the end
  of a scope that is reached.

Result: `dropsOnce_of_tidy`, every path through the code of such a body disposes of
every value once. The walk of the emission and the reading of the text agree
(`Mirrors`), and on a path the live slots are those of the locals that are held
(`Holds`).
-/

namespace Arche.Codegen.Drops

open Arche.Lib

/-! ## Reading the text -/

/-- A droppable local with its number in the text. -/
abbrev Item := String × Slot

/-- What is known at a point of the text. `ended`: a `return` is the last thing before it, without a
label in between; `reached`: some path leads here. -/
structure Point where
  env : List (String × Option Slot)
  held : List Item
  pending : List Item
  next : Slot
  ended : Bool
  reached : Bool
deriving DecidableEq, Repr

/-- What must be held where the loop around is left and where it goes on. -/
structure Heads where
  brk : Option (List Item)
  cont : Option (List Item)
deriving DecidableEq, Repr

def slots (is : List Item) : List Slot := is.map Prod.snd

/-- The locals declared from number `n` on. -/
def since (n : Slot) (is : List Item) : List Item := is.filter fun i => n ≤ i.2

/-- The locals declared before number `n`. -/
def before (n : Slot) (is : List Item) : List Item := is.filter fun i => i.2 < n

namespace Point

def resolve (p : Point) (x : String) : Option Slot := lookup p.env x

/-- `x` is read. -/
def use (p : Point) (x : String) : Option Point :=
  match p.resolve x with
  | none => some p
  | some s => if s ∈ slots p.held then some p else none

/-- `x` is handed over. -/
def take (p : Point) (x : String) : Option Point :=
  match p.resolve x with
  | none => some p
  | some s =>
    if s ∈ slots p.held then some { p with held := p.held.filter fun i => i.2 ≠ s } else none

def put (p : Point) (i : Item) : Option Point :=
  if i.2 ∈ slots p.held then none else some { p with held := i :: p.held }

/-- A value is stored into `x`. -/
def store (p : Point) (x : String) : Option Point :=
  match p.resolve x with
  | none => some p
  | some s => p.put (x, s)

/-- A move of `x` stands here. -/
def mark (p : Point) (x : String) : Point :=
  { p with pending := p.pending.eraseP fun i => i.1 == x }

def markOpt (p : Point) : Option String → Point
  | none => p
  | some x => p.mark x

def declare (p : Point) (x : String) : Point := { p with env := (x, none) :: p.env }

def declareSlot (p : Point) (x : String) (track : Bool) : Point :=
  { p with
    env := (x, some p.next) :: p.env
    next := p.next + 1
    pending := if track then (x, p.next) :: p.pending else p.pending }

def atLabel (p : Point) : Point := { p with ended := false }

/-- The end of a scope that began with number `n` and is none for the emission. -/
def endArm (n : Slot) (p : Point) : Option Point :=
  if since n p.pending = [] ∧ (p.reached = true → since n p.held = []) then some p else none

/-- The end of a scope that began with number `n`: what is held is what will be destroyed. -/
def endScope (n : Slot) (p : Point) : Option Point :=
  if p.reached = true → p.ended = false ∧ since n p.held = since n p.pending then
    some { p with held := before n p.held, pending := before n p.pending }
  else none

/-- On every path to `p` the locals in `h` are held. -/
def holding (h : List Item) (p : Point) : Option Point :=
  if p.reached = true → p.held = h then some p else none

/-- After a loop or a fan that began at `p₀`. -/
def after (p₀ p : Point) : Point := { p with env := p₀.env, held := p₀.held, reached := true }

end Point

mutual

def tidyExpr (p : Point) : Expr → Option Point
  | .literal => some p
  | .name x => p.use x
  | .move e =>
    match e.bare? with
    | some x => p.take x
    | none => tidyExpr p e
  | .copy e => tidyExpr p e
  | .op es => tidyExprs p es
  | .logical l r =>
    (tidyExpr p l).bind fun p₁ => (tidyExpr p₁.atLabel r).bind fun p₂ =>
      if p₂.held = p₁.held then some p₂.atLabel else none
  | .call args => tidyArgs p args
  | .insert vals => tidyVals (vals.foldl (fun p e => p.markOpt e.given?) p) vals

def tidyExprs (p : Point) : List Expr → Option Point
  | [] => some p
  | e :: es => (tidyExpr p e).bind fun p₁ => tidyExprs p₁ es

def tidyArgs (p : Point) : List Expr → Option Point
  | [] => some p
  | e :: es => (tidyExpr (p.markOpt e.moved?) e).bind fun p₁ => tidyArgs p₁ es

def tidyVals (p : Point) : List Expr → Option Point
  | [] => some p
  | e :: es =>
    match e.bare? with
    | some x => (p.take x).bind fun p₁ => tidyVals p₁ es
    | none => (tidyExpr p e).bind fun p₁ => tidyVals p₁ es

end

def tidyOpt (p : Point) : Option Expr → Option Point
  | none => some p
  | some e => tidyExpr p e

def tidyTaken (p : Point) (e : Expr) : Option Point :=
  match e.bare? with
  | some x => p.take x
  | none => tidyExpr p e

def tidyTargets (track : Bool) (p : Point) : List Target → Option Point
  | [] => some p
  | .new x true :: gs =>
    ((p.declareSlot x track).put (x, p.next)).bind fun p₁ => tidyTargets track p₁ gs
  | .new x false :: gs => tidyTargets track (p.declare x) gs
  | .place x :: gs => (p.store x).bind fun p₁ => tidyTargets track p₁ gs

/-- The locals a proc stores its results into, and the point before its call. -/
def tidyDeclare (p : Point) : List Target → List Item × Point
  | [] => ([], p)
  | .new x true :: gs =>
    let b := tidyDeclare (p.declareSlot x true) gs
    ((x, p.next) :: b.1, b.2)
  | .new x false :: gs => tidyDeclare (p.declare x) gs
  | .place x :: gs =>
    let b := tidyDeclare p gs
    ((p.resolve x).toList.map (fun s => (x, s)) ++ b.1, b.2)

def tidyPuts (p : Point) : List Item → Option Point
  | [] => some p
  | i :: is => (p.put i).bind fun p₁ => tidyPuts p₁ is

def tidyScatter (p : Point) : List Expr → Option Point
  | [] => some p
  | e :: es => (tidyTaken p e.element).bind fun p₁ => tidyScatter (p₁.markOpt e.element.bare?) es

def tidySimple (p : Point) : Simple → Option Point
  | .bind x true none => some (p.declareSlot x false)
  | .bind x true (some e) =>
    (tidyTaken p e).bind fun p₁ => (p₁.declareSlot x false).put (x, p₁.next)
  | .bind x false none => some (p.declare x)
  | .bind x false (some e) => (tidyTaken p e).bind fun p₁ => some (p₁.declare x)
  | .multiBind .foreign value targets =>
    (tidyExpr p value).bind fun p₁ => tidyTargets true p₁ targets
  | .multiBind .func value targets =>
    (tidyExpr p value).bind fun p₁ => tidyTargets false p₁ targets
  | .multiBind .proc value targets =>
    let d := tidyDeclare p targets
    (tidyExpr d.2 value).bind fun p₁ => tidyPuts p₁ d.1
  | .assign (.var x) value =>
    (tidyTaken (p.markOpt value.stripped?) value).bind fun p₁ => p₁.store x
  | .assign (.place es) value =>
    (tidyTaken (p.markOpt value.stripped?) value).bind fun p₁ => tidyExprs p₁ es
  | .scatter vals => tidyScatter p vals
  | .expr e => tidyExpr p e
  | .run gpu => some (if gpu then p.atLabel else p)

def tidyClause (p : Point) : Option Simple → Option Point
  | none => some p
  | some s => tidySimple p s

/-- A `return`: what is not returned is destroyed before the values are evaluated, and what is
returned is handed over by them. -/
def tidyReturn (p : Point) (vals : List Expr) : Option Point :=
  let p₁ := vals.foldl (fun p e => p.markOpt e.bare?) p
  let kept := vals.filterMap fun e => e.bare?.bind p.resolve
  if p.held.filter (fun i => i.2 ∉ kept) = p₁.pending then
    (tidyVals { p₁ with held := p.held.filter (fun i => i.2 ∈ kept), ended := true } vals).bind
      fun p₂ => if p₂.held = [] then some { p₂ with reached := false } else none
  else none

/-- Both arms leave the same locals holding a value, or only one is left at its end. -/
def joinArms (thn els : Point) : Option Point :=
  if thn.reached = false then some els.atLabel
  else if els.reached = false then
    some { els with held := thn.held, ended := false, reached := true }
  else if thn.held = els.held then some els.atLabel
  else none

def leaveLoop (p : Point) (head : Option (List Item)) : Option Point :=
  if head = some p.held then some { p with reached := false } else none

mutual

def tidyStmt (k : Heads) (p : Point) : Stmt → Option Point
  | .simple s => tidySimple p s
  | .forC init cond incr body =>
    (tidyClause p init).bind fun p₁ => (tidyOpt p₁ cond).bind fun p₂ =>
    (p₂.holding p₁.held).bind fun p₂ =>
    (tidyStmts ⟨some p₂.held, some p₂.held⟩ p₂ body).bind fun p₃ =>
    (p₃.endArm p₂.next).bind fun p₃ => (p₃.holding p₂.held).bind fun p₃ =>
    (tidyClause { p₃ with held := p₂.held, ended := false, reached := true } incr).bind fun p₄ =>
    (p₄.holding p₂.held).bind fun p₄ =>
    (p₄.endScope p.next).bind fun p₅ => some { p₅ with env := p.env }
  | .loop cond body =>
    (tidyOpt p cond).bind fun p₁ => (p₁.holding p.held).bind fun p₁ =>
    (tidyStmts ⟨some p₁.held, some p₁.held⟩ p₁ body).bind fun p₂ =>
    (p₂.endScope p₁.next).bind fun p₃ => (p₃.holding p₁.held).bind fun p₃ => some (p₁.after p₃)
  | .ite cond thn els =>
    (tidyExpr p cond).bind fun p₁ =>
    (tidyStmts k p₁.atLabel thn).bind fun p₂ => (p₂.endArm p₁.next).bind fun p₂ =>
    (tidyStmts k { p₂ with held := p₁.held, ended := false, reached := true } els).bind fun p₃ =>
    (p₃.endArm p₂.next).bind fun p₃ => joinArms p₂ p₃
  | .block body => (tidyStmts k p body).bind fun p₁ => p₁.endArm p.next
  | .fan binds body =>
    let p₁ := (binds.foldl (fun p x => p.declare x) p).atLabel
    (tidyStmts ⟨k.brk, some p.held⟩ p₁ body).bind fun p₂ =>
    (p₂.endScope p.next).bind fun p₃ => (p₃.holding p.held).bind fun p₃ =>
    some (p.after p₃).atLabel
  | .ret vals => tidyReturn p vals
  | .brk => leaveLoop p k.brk
  | .cont => leaveLoop p k.cont

/-- Nothing follows a statement that is not left at its end. -/
def tidyStmts (k : Heads) (p : Point) : List Stmt → Option Point
  | [] => some p
  | s :: ss =>
    if p.reached = true then (tidyStmt k p s).bind fun p₁ => tidyStmts k p₁ ss else none

end

def entryPoint (params : List String) : Point :=
  ⟨params.map fun x => (x, none), [], [], 0, false, true⟩

def tidy (params : List String) (body : List Stmt) : Bool :=
  ((tidyStmts ⟨none, none⟩ (entryPoint params) body).bind (Point.endScope 0)).isSome

/-! ## The emission and the text -/

/-- What will be destroyed: the entries that are not flagged. -/
def pendingOf (es : List Entry) : List Item :=
  (es.filter fun e => !e.consumed).map fun e => (e.name, e.slot)

/-- The context of the emission at a point of the text. -/
structure Mirrors (c : Ctx) (p : Point) : Prop where
  env : c.scopes.flatten = p.env
  next : c.next = p.next
  ended : c.terminated = p.ended
  pending : pendingOf c.live = p.pending
  inScope : c.scopes ≠ []

/-- Every number is one of a declaration further up. -/
structure Bound (p : Point) : Prop where
  held : ∀ i ∈ p.held, i.2 < p.next
  env : ∀ v ∈ p.env, ∀ s, v.2 = some s → s < p.next

/-- The live slots of a path are those of the locals that are held. -/
def Holds (is : List Item) (m : Mem) : Prop := ∀ s, m s = .live ↔ s ∈ slots is

/-- Every path of the code from `P` has only good events and ends in `N`, or leaves it in `E`. -/
abbrev Safely (P : Mem → Prop) (c : Code) (N : Mem → Prop) (E : Lib.Outcome → Mem → Prop) : Prop :=
  Meets (fun e => e.good = true) P c.run N E

/-- Code without jumps is not left early. -/
def never : Lib.Outcome → Mem → Prop := fun _ _ => False

/-- Emitted code without jumps: the text goes on at `p'` where the emission goes on. -/
structure Straight (p : Point) (r : Code × Ctx) (p' : Point) : Prop where
  mirrors : Mirrors r.2 p'
  bound : Bound p'
  reached : p'.reached = p.reached
  meets : Safely (Holds p.held) r.1 (Holds p'.held) never

theorem pendingOf_append (as bs : List Entry) :
    pendingOf (as ++ bs) = pendingOf as ++ pendingOf bs := by
  unfold pendingOf
  rw [List.filter_append, List.map_append]

theorem pendingOf_markFirst (x : String) (es : List Entry) :
    pendingOf (markFirst x es) = (pendingOf es).eraseP fun i => i.1 == x := by
  induction es with
  | nil => rfl
  | cons e es ih =>
    unfold pendingOf at ih ⊢
    cases hc : e.consumed with
    | true => simp [markFirst, hc, ih]
    | false =>
      cases hx : e.name == x with
      | true => simp [markFirst, hc, hx]
      | false => simp [markFirst, hc, hx, ih]

theorem mirrors_markOpt {c : Ctx} {p : Point} (h : Mirrors c p) (o : Option String) :
    Mirrors (c.markOpt o) (p.markOpt o) := by
  cases o with
  | none => exact h
  | some x =>
    refine ⟨h.env, h.next, h.ended, ?_, h.inScope⟩
    show pendingOf (markFirst x c.live) = p.pending.eraseP fun i => i.1 == x
    rw [pendingOf_markFirst, h.pending]

theorem bound_markOpt {p : Point} (h : Bound p) (o : Option String) : Bound (p.markOpt o) := by
  cases o with
  | none => exact h
  | some x => exact ⟨h.held, h.env⟩

theorem markOpt_held (p : Point) (o : Option String) : (p.markOpt o).held = p.held := by
  cases o <;> rfl

theorem markOpt_reached (p : Point) (o : Option String) :
    (p.markOpt o).reached = p.reached := by
  cases o <;> rfl

/-- Several moves in a row. -/
theorem mirrors_marks {f : Expr → Option String} {c : Ctx} {p : Point} (hm : Mirrors c p)
    (hb : Bound p) (es : List Expr) :
    let c' := es.foldl (fun c e => c.markOpt (f e)) c
    let p' := es.foldl (fun p e => p.markOpt (f e)) p
    Mirrors c' p' ∧ Bound p' ∧ p'.held = p.held ∧ p'.reached = p.reached := by
  induction es generalizing c p with
  | nil => exact ⟨hm, hb, rfl, rfl⟩
  | cons e es ih =>
    obtain ⟨hm', hb', hheld, hreached⟩ := ih (mirrors_markOpt hm (f e)) (bound_markOpt hb (f e))
    exact ⟨hm', hb', hheld.trans (markOpt_held p (f e)), hreached.trans (markOpt_reached p (f e))⟩

theorem mirrors_atLabel {c : Ctx} {p : Point} (h : Mirrors c p) : Mirrors c.atLabel p.atLabel :=
  ⟨h.env, h.next, rfl, h.pending, h.inScope⟩

theorem bound_atLabel {p : Point} (h : Bound p) : Bound p.atLabel := ⟨h.held, h.env⟩

theorem findValue_eq {c : Ctx} {p : Point} (h : Mirrors c p) (x : String) :
    c.findValue x = p.resolve x := by
  unfold Ctx.findValue Point.resolve
  rw [h.env]

theorem lookup_lt {p : Point} (h : Bound p) {x : String} {s : Slot} (hs : p.resolve x = some s) :
    s < p.next := by
  unfold Point.resolve lookup at hs
  obtain ⟨v, hv, hvs⟩ := Option.bind_eq_some_iff.mp hs
  exact h.env v (List.mem_of_find?_eq_some hv) s hvs

theorem mem_slots_filter {is : List Item} {f : Slot → Bool} {s : Slot} :
    s ∈ slots (is.filter fun i => f i.2) ↔ s ∈ slots is ∧ f s = true := by
  unfold slots
  rw [List.mem_map, List.mem_map]
  constructor
  · rintro ⟨i, hi, rfl⟩
    obtain ⟨hi, hf⟩ := List.mem_filter.mp hi
    exact ⟨⟨i, hi, rfl⟩, hf⟩
  · rintro ⟨⟨i, hi, rfl⟩, hf⟩
    exact ⟨i, List.mem_filter.mpr ⟨hi, hf⟩, rfl⟩

/-! ### One instruction -/

theorem meets_read {is : List Item} {s : Slot} (hs : s ∈ slots is) :
    Safely (Holds is) (Code.instr (.read s)) (Holds is) never := by
  refine Meets.act fun m hm => ⟨fun e he => ?_, hm⟩
  cases List.mem_singleton.mp he
  exact beq_iff_eq.mpr ((hm s).mpr hs)

theorem holds_set {is is' : List Item} {m : Mem} {s : Slot} {st : Status} (hm : Holds is m)
    (hat : st = .live ↔ s ∈ slots is')
    (hoff : ∀ s', s' ≠ s → (s' ∈ slots is ↔ s' ∈ slots is')) : Holds is' (m.set s st) := by
  intro s'
  unfold Mem.set
  split
  · next h =>
    rw [h]
    exact hat
  · next h => exact (hm s').trans (hoff s' h)

/-- A slot that is handed over or destroyed. -/
theorem holds_unset {is : List Item} {m : Mem} {s : Slot} {st : Status} (hm : Holds is m)
    (hst : st ≠ .live) : Holds (is.filter fun i => i.2 ≠ s) (m.set s st) := by
  have hmem : ∀ s', s' ∈ slots (is.filter fun i => i.2 ≠ s) ↔ s' ∈ slots is ∧ s' ≠ s := by
    intro s'
    rw [mem_slots_filter (f := fun s' => decide (s' ≠ s)), decide_eq_true_iff]
  refine holds_set hm ⟨fun h => absurd h hst, fun h => ?_⟩ fun s' hs' => ?_
  · exact absurd rfl ((hmem s).mp h).2
  · exact ⟨fun h => (hmem s').mpr ⟨h, hs'⟩, fun h => ((hmem s').mp h).1⟩

theorem meets_take {is : List Item} {s : Slot} (hs : s ∈ slots is) :
    Safely (Holds is) (Code.instr (.take s))
      (Holds (is.filter fun i => i.2 ≠ s)) never := by
  refine Meets.act fun m hm => ⟨fun e he => ?_, holds_unset hm Status.noConfusion⟩
  cases List.mem_singleton.mp he
  exact beq_iff_eq.mpr ((hm s).mpr hs)

theorem meets_drop {is : List Item} {s : Slot} (hs : s ∈ slots is) :
    Safely (Holds is) (Code.instr (.drop s))
      (Holds (is.filter fun i => i.2 ≠ s)) never := by
  refine Meets.act fun m hm => ⟨fun e he => ?_, holds_unset hm Status.noConfusion⟩
  cases List.mem_singleton.mp he
  exact beq_iff_eq.mpr ((hm s).mpr hs)

theorem meets_put {is : List Item} {x : String} {s : Slot} (hs : s ∉ slots is) :
    Safely (Holds is) (Code.instr (.put s))
      (Holds ((x, s) :: is)) never := by
  refine Meets.act fun m hm => ⟨fun e he => ?_, ?_⟩
  · cases List.mem_singleton.mp he
    exact bne_iff_ne.mpr fun h => hs ((hm s).mp h)
  · refine holds_set hm ⟨fun _ => List.mem_cons_self, fun _ => rfl⟩ fun s' hs' => ?_
    refine ⟨List.mem_cons_of_mem _, fun h => ?_⟩
    rcases List.mem_cons.mp h with h | h
    · exact absurd h hs'
    · exact h

/-! ### Straight code -/

theorem straight_skip {c : Ctx} {p : Point} (hm : Mirrors c p) (hb : Bound p) :
    Straight p (.skip, c) p :=
  ⟨hm, hb, rfl, Meets.skip fun _ h => h⟩

theorem Straight.seq {p p₁ p₂ : Point} {a b : Code × Ctx} (ha : Straight p a p₁)
    (hb : Straight p₁ b p₂) : Straight p (.seq a.1 b.1, b.2) p₂ :=
  ⟨hb.mirrors, hb.bound, hb.reached.trans ha.reached, ha.meets.seq hb.meets⟩

/-- Only what is held where the code begins matters to the path. -/
theorem Straight.start {p q p' : Point} {r : Code × Ctx} (h : Straight q r p')
    (hheld : q.held = p.held) (hreached : q.reached = p.reached) : Straight p r p' :=
  ⟨h.mirrors, h.bound, h.reached.trans hreached, hheld ▸ h.meets⟩

theorem straight_use {c : Ctx} {p p' : Point} {x : String} (hm : Mirrors c p) (hb : Bound p)
    (h : p.use x = some p') : Straight p (c.readName x, c) p' := by
  unfold Ctx.readName
  unfold Point.use at h
  rw [findValue_eq hm]
  cases hx : p.resolve x with
  | none =>
    simp only [hx, Option.some.injEq] at h
    subst h
    exact straight_skip hm hb
  | some s =>
    simp only [hx] at h
    split at h
    · next hs =>
      cases h
      exact ⟨hm, hb, rfl, meets_read hs⟩
    · cases h

theorem straight_take {c : Ctx} {p p' : Point} {x : String} (hm : Mirrors c p) (hb : Bound p)
    (h : p.take x = some p') : Straight p (c.takeName x, c) p' := by
  unfold Ctx.takeName
  unfold Point.take at h
  rw [findValue_eq hm]
  cases hx : p.resolve x with
  | none =>
    simp only [hx, Option.some.injEq] at h
    subst h
    exact straight_skip hm hb
  | some s =>
    simp only [hx] at h
    split at h
    · next hs =>
      cases h
      refine ⟨⟨hm.env, hm.next, hm.ended, hm.pending, hm.inScope⟩, ⟨?_, hb.env⟩, rfl, meets_take hs⟩
      exact fun i hi => hb.held i (List.mem_filter.mp hi).1
    · cases h

/-- A store into a slot that is no slot of a local that is held. -/
theorem straight_put {c : Ctx} {p p' : Point} {i : Item} (hm : Mirrors c p) (hb : Bound p)
    (hi : i.2 < p.next) (h : p.put i = some p') : Straight p (.instr (.put i.2), c) p' := by
  unfold Point.put at h
  split at h
  · cases h
  · next hs =>
    cases h
    refine ⟨⟨hm.env, hm.next, hm.ended, hm.pending, hm.inScope⟩, ⟨?_, hb.env⟩, rfl, meets_put hs⟩
    intro j hj
    rcases List.mem_cons.mp hj with rfl | hj
    · exact hi
    · exact hb.held j hj

theorem straight_store {c : Ctx} {p p' : Point} {x : String} (hm : Mirrors c p) (hb : Bound p)
    (h : p.store x = some p') : Straight p (c.putName x, c) p' := by
  unfold Ctx.putName
  unfold Point.store at h
  rw [findValue_eq hm]
  cases hx : p.resolve x with
  | none =>
    simp only [hx, Option.some.injEq] at h
    subst h
    exact straight_skip hm hb
  | some s =>
    simp only [hx] at h
    exact straight_put hm hb (lookup_lt hb hx) h

/-! ### The list of entries -/

def Entry.key (e : Entry) : Slot × Nat := (e.slot, e.depth)

/-- Only flags of entries and `terminated` differ. -/
structure Flagged (c c' : Ctx) : Prop where
  scopes : c'.scopes = c.scopes
  next : c'.next = c.next
  keys : c'.live.map Entry.key = c.live.map Entry.key

theorem Flagged.refl (c : Ctx) : Flagged c c := ⟨rfl, rfl, rfl⟩

theorem Flagged.trans {a b c : Ctx} (h : Flagged a b) (h' : Flagged b c) : Flagged a c :=
  ⟨h'.scopes.trans h.scopes, h'.next.trans h.next, h'.keys.trans h.keys⟩

theorem markFirst_keys (x : String) (es : List Entry) :
    (markFirst x es).map Entry.key = es.map Entry.key := by
  induction es with
  | nil => rfl
  | cons e es ih =>
    rw [markFirst]
    split
    · rfl
    · rw [List.map_cons, List.map_cons, ih]

theorem flagged_markOpt (c : Ctx) (o : Option String) : Flagged c (c.markOpt o) := by
  cases o with
  | none => exact .refl c
  | some x => exact ⟨rfl, rfl, markFirst_keys x c.live⟩

theorem flagged_marks (f : Expr → Option String) (c : Ctx) (es : List Expr) :
    Flagged c (es.foldl (fun c e => c.markOpt (f e)) c) := by
  induction es generalizing c with
  | nil => exact .refl c
  | cons e es ih => exact (flagged_markOpt c (f e)).trans (ih _)

theorem flagged_atLabel (c : Ctx) : Flagged c c.atLabel := ⟨rfl, rfl, rfl⟩

theorem flagged_terminated (c : Ctx) : Flagged c { c with terminated := true } := ⟨rfl, rfl, rfl⟩

mutual

theorem emitExpr_flagged : ∀ (e : Expr) (c : Ctx), Flagged c (emitExpr c e).2
  | .literal, c => .refl c
  | .name _, c => .refl c
  | .move e, c => by
    rw [emitExpr]
    cases e.bare? with
    | some x => exact .refl c
    | none => exact emitExpr_flagged e c
  | .copy e, c => by
    rw [emitExpr]
    exact emitExpr_flagged e c
  | .op es, c => by
    rw [emitExpr]
    exact emitExprs_flagged es c
  | .logical l r, c => by
    rw [emitExpr]
    have hl := (emitExpr_flagged l c).trans (flagged_atLabel _)
    exact (hl.trans (emitExpr_flagged r _)).trans (flagged_atLabel _)
  | .call args, c => by
    rw [emitExpr]
    exact emitArgs_flagged args c
  | .insert vals, c => by
    rw [emitExpr]
    exact (flagged_marks Expr.given? c vals).trans (emitVals_flagged vals _)

theorem emitExprs_flagged : ∀ (es : List Expr) (c : Ctx), Flagged c (emitExprs c es).2
  | [], c => .refl c
  | e :: es, c => (emitExpr_flagged e c).trans (emitExprs_flagged es _)

theorem emitArgs_flagged : ∀ (es : List Expr) (c : Ctx), Flagged c (emitArgs c es).2
  | [], c => .refl c
  | e :: es, c =>
    ((flagged_markOpt c e.moved?).trans (emitExpr_flagged e _)).trans (emitArgs_flagged es _)

theorem emitVals_flagged : ∀ (es : List Expr) (c : Ctx), Flagged c (emitVals c es).2
  | [], c => .refl c
  | e :: es, c => by
    rw [emitVals]
    cases e.bare? with
    | some x => exact emitVals_flagged es c
    | none => exact (emitExpr_flagged e c).trans (emitVals_flagged es _)

end

theorem emitOpt_flagged (c : Ctx) (o : Option Expr) : Flagged c (emitOpt c o).2 := by
  cases o with
  | none => exact .refl c
  | some e => exact emitExpr_flagged e c

theorem emitTaken_flagged (c : Ctx) (e : Expr) : Flagged c (emitTaken c e).2 := by
  unfold emitTaken
  cases e.bare? with
  | some x => exact .refl c
  | none => exact emitExpr_flagged e c

/-- What the emission of a scope's statements leaves: the scopes around are as they were, the new
entries are on top, with this depth and new slots, and of the old ones only flags differ. -/
structure Grows (c c' : Ctx) : Prop where
  length : c'.scopes.length = c.scopes.length
  tail : c'.scopes.tail = c.scopes.tail
  next : c.next ≤ c'.next
  live : ∃ new old, c'.live = new ++ old ∧
    (∀ e ∈ new, e.depth = c.scopes.length ∧ c.next ≤ e.slot ∧ e.slot < c'.next) ∧
    (new.map Entry.slot).Nodup ∧ old.map Entry.key = c.live.map Entry.key

theorem Flagged.grows {c c' : Ctx} (h : Flagged c c') : Grows c c' :=
  ⟨congrArg List.length h.scopes, congrArg List.tail h.scopes, Nat.le_of_eq h.next.symm,
    [], c'.live, rfl, fun _ he => absurd he List.not_mem_nil, List.nodup_nil, h.keys⟩

theorem Grows.refl (c : Ctx) : Grows c c := (Flagged.refl c).grows

/-- Entries with the same keys. -/
theorem mem_of_keys {as bs : List Entry} (h : as.map Entry.key = bs.map Entry.key) {e : Entry}
    (he : e ∈ as) : ∃ e' ∈ bs, e'.slot = e.slot ∧ e'.depth = e.depth := by
  have hkey : e.key ∈ bs.map Entry.key := h ▸ List.mem_map_of_mem he
  obtain ⟨e', he', hk⟩ := List.mem_map.mp hkey
  exact ⟨e', he', congrArg Prod.fst hk, congrArg Prod.snd hk⟩

theorem slots_of_keys {as bs : List Entry} (h : as.map Entry.key = bs.map Entry.key) :
    as.map Entry.slot = bs.map Entry.slot := by
  have hslot : ∀ es : List Entry, es.map Entry.slot = (es.map Entry.key).map Prod.fst := by
    intro es
    rw [List.map_map]
    rfl
  rw [hslot, hslot, h]

theorem Grows.trans {a b c : Ctx} (h : Grows a b) (h' : Grows b c) : Grows a c := by
  obtain ⟨new, old, hlive, hnew, hnodup, hold⟩ := h.live
  obtain ⟨new', old', hlive', hnew', hnodup', hold'⟩ := h'.live
  rw [hlive, List.map_append] at hold'
  obtain ⟨mid, rest, rfl, hmid, hrest⟩ := List.map_eq_append_iff.mp hold'
  have hmem : ∀ e ∈ mid, e.depth = a.scopes.length ∧ a.next ≤ e.slot ∧ e.slot < b.next := by
    intro e he
    obtain ⟨e₀, he₀, hslot, hdepth⟩ := mem_of_keys hmid he
    rw [← hslot, ← hdepth]
    exact hnew e₀ he₀
  refine ⟨h'.length.trans h.length, h'.tail.trans h.tail, Nat.le_trans h.next h'.next, new' ++ mid,
    rest, by rw [hlive', List.append_assoc], fun e he => ?_, ?_, hrest.trans hold⟩
  · rcases List.mem_append.mp he with he | he
    · obtain ⟨hd, hlo, hhi⟩ := hnew' e he
      exact ⟨hd.trans h.length, Nat.le_trans h.next hlo, hhi⟩
    · obtain ⟨hd, hlo, hhi⟩ := hmem e he
      exact ⟨hd, hlo, Nat.lt_of_lt_of_le hhi h'.next⟩
  · rw [List.map_append]
    refine List.nodup_append.mpr ⟨hnodup', slots_of_keys hmid ▸ hnodup, ?_⟩
    rintro s hs s' hs' rfl
    obtain ⟨e, he, rfl⟩ := List.mem_map.mp hs
    obtain ⟨e', he', heq⟩ := List.mem_map.mp hs'
    exact absurd (heq ▸ (hmem e' he').2.2) (Nat.not_lt.mpr (hnew' e he).2.1)

/-- The entries are of the open scopes and have slots of their own. -/
structure Ordered (c : Ctx) : Prop where
  depth : ∀ e ∈ c.live, e.depth ≤ c.scopes.length
  slot : ∀ e ∈ c.live, e.slot < c.next
  nodup : (c.live.map Entry.slot).Nodup

theorem Grows.ordered {c c' : Ctx} (h : Grows c c') (ho : Ordered c) : Ordered c' := by
  obtain ⟨new, old, hlive, hnew, hnodup, hold⟩ := h.live
  have hkept : ∀ e ∈ old, e.depth ≤ c.scopes.length ∧ e.slot < c.next := by
    intro e he
    obtain ⟨e₀, he₀, hslot, hdepth⟩ := mem_of_keys hold he
    rw [← hslot, ← hdepth]
    exact ⟨ho.depth e₀ he₀, ho.slot e₀ he₀⟩
  refine ⟨fun e he => ?_, fun e he => ?_, ?_⟩
  · rw [h.length]
    rw [hlive] at he
    rcases List.mem_append.mp he with he | he
    · exact Nat.le_of_eq (hnew e he).1
    · exact (hkept e he).1
  · rw [hlive] at he
    rcases List.mem_append.mp he with he | he
    · exact (hnew e he).2.2
    · exact Nat.lt_of_lt_of_le (hkept e he).2 h.next
  · rw [hlive, List.map_append]
    refine List.nodup_append.mpr ⟨hnodup, slots_of_keys hold ▸ ho.nodup, ?_⟩
    rintro s hs s' hs' rfl
    obtain ⟨e, he, rfl⟩ := List.mem_map.mp hs
    obtain ⟨e', he', heq⟩ := List.mem_map.mp hs'
    exact absurd (heq ▸ (hkept e' he').2) (Nat.not_lt.mpr (hnew e he).2.1)

theorem ordered_push {c : Ctx} (h : Ordered c) : Ordered c.pushValueScope :=
  ⟨fun e he => Nat.le_succ_of_le (h.depth e he), h.slot, h.nodup⟩

theorem grows_addValue (c : Ctx) (x : String) (v : Option Slot) : Grows c (c.addValue x v) := by
  unfold Ctx.addValue
  cases hs : c.scopes with
  | nil => exact .refl c
  | cons s ss =>
    refine ⟨?_, ?_, Nat.le_refl _, [], c.live, rfl, fun _ he => absurd he List.not_mem_nil,
      List.nodup_nil, rfl⟩
    · rw [hs]
      rfl
    · rw [hs]
      rfl

theorem grows_addSlot (c : Ctx) (x : String) (track : Bool) : Grows c (c.addSlot x track) := by
  have hadd := grows_addValue c x (some c.next)
  have hlive : (c.addValue x (some c.next)).live = c.live := by
    unfold Ctx.addValue
    cases c.scopes <;> rfl
  cases track with
  | false =>
    exact ⟨hadd.length, hadd.tail, Nat.le_succ _, [], c.live, hlive,
      fun _ he => absurd he List.not_mem_nil, List.nodup_nil, rfl⟩
  | true =>
    refine ⟨hadd.length, hadd.tail, Nat.le_succ _, [⟨x, c.next, c.scopes.length, false⟩], c.live,
      congrArg (_ :: ·) hlive, fun e he => ?_, List.pairwise_singleton _ _, rfl⟩
    cases List.mem_singleton.mp he
    exact ⟨rfl, Nat.le_refl _, Nat.lt_succ_self _⟩

theorem split_while {α : Type} {f : α → Bool} {as bs : List α} (ha : ∀ a ∈ as, f a = true)
    (hb : ∀ b ∈ bs, f b = false) :
    (as ++ bs).takeWhile f = as ∧ (as ++ bs).dropWhile f = bs := by
  induction as with
  | nil =>
    cases bs with
    | nil => exact ⟨rfl, rfl⟩
    | cons b bs =>
      have hfb := hb b List.mem_cons_self
      exact ⟨List.takeWhile_cons_of_neg (by simp [hfb]), List.dropWhile_cons_of_neg (by simp [hfb])⟩
  | cons a as ih =>
    have hfa := ha a List.mem_cons_self
    obtain ⟨htake, hdrop⟩ := ih fun a h => ha a (List.mem_cons_of_mem _ h)
    refine ⟨?_, ?_⟩
    · rw [List.cons_append, List.takeWhile_cons_of_pos hfa, htake]
    · rw [List.cons_append, List.dropWhile_cons_of_pos hfa, hdrop]

/-- The entries of a scope that is closed are those added since it was opened. -/
theorem pop_entries {c c₁ : Ctx} (ho : Ordered c) (h : Grows c.pushValueScope c₁) :
    ∃ new old, c₁.live = new ++ old ∧
      c₁.popValueScope = (if c₁.terminated then .skip else drops new,
        { c₁ with scopes := c.scopes, live := old }) ∧
      (∀ e ∈ new, c.next ≤ e.slot) ∧ (∀ e ∈ old, e.slot < c.next) ∧
      (new.map Entry.slot).Nodup ∧ old.map Entry.key = c.live.map Entry.key := by
  obtain ⟨new, old, hlive, hnew, hnodup, hold⟩ := h.live
  have hkept : ∀ e ∈ old, e.depth ≤ c.scopes.length ∧ e.slot < c.next := by
    intro e he
    obtain ⟨e₀, he₀, hslot, hdepth⟩ := mem_of_keys hold he
    rw [← hslot, ← hdepth]
    exact ⟨ho.depth e₀ he₀, ho.slot e₀ he₀⟩
  have hlen : c₁.scopes.length = c.scopes.length + 1 := h.length
  have hsplit := split_while (f := fun e : Entry => decide (c₁.scopes.length ≤ e.depth))
    (fun e he => decide_eq_true (hlen ▸ Nat.le_of_eq (hnew e he).1.symm))
    (fun e he => decide_eq_false (hlen ▸ Nat.not_le.mpr (Nat.lt_succ_of_le (hkept e he).1)))
  refine ⟨new, old, hlive, ?_, fun e he => (hnew e he).2.1, fun e he => (hkept e he).2, hnodup,
    hold⟩
  have htail : c₁.scopes.tail = c.scopes := h.tail
  unfold Ctx.popValueScope
  simp only [htail, hlive, hsplit]

theorem grows_pop {c c₁ : Ctx} (ho : Ordered c) (h : Grows c.pushValueScope c₁) :
    Grows c c₁.popValueScope.2 := by
  obtain ⟨new, old, _, hpop, _, _, _, hold⟩ := pop_entries ho h
  rw [hpop]
  exact ⟨rfl, rfl, h.next, [], old, rfl, fun _ he => absurd he List.not_mem_nil, List.nodup_nil,
    hold⟩

theorem emitTargets_grows (track : Bool) (gs : List Target) (c : Ctx) :
    Grows c (emitTargets track c gs).2 := by
  induction gs generalizing c with
  | nil => exact .refl c
  | cons g gs ih =>
    match g with
    | .new x true => exact (grows_addSlot c x track).trans (ih _)
    | .new x false => exact (grows_addValue c x none).trans (ih _)
    | .place x => exact ih c

theorem declareTargets_grows (gs : List Target) (c : Ctx) : Grows c (declareTargets c gs).2 := by
  induction gs generalizing c with
  | nil => exact .refl c
  | cons g gs ih =>
    match g with
    | .new x true => exact (grows_addSlot c x true).trans (ih _)
    | .new x false => exact (grows_addValue c x none).trans (ih _)
    | .place x => exact ih c

theorem emitScatter_flagged (es : List Expr) (c : Ctx) : Flagged c (emitScatter c es).2 := by
  induction es generalizing c with
  | nil => exact .refl c
  | cons e es ih =>
    exact ((emitTaken_flagged c e.element).trans (flagged_markOpt _ _)).trans (ih _)

theorem emitSimple_grows (s : Simple) (c : Ctx) : Grows c (emitSimple c s).2 := by
  match s with
  | .bind x true none => exact grows_addSlot c x false
  | .bind x true (some e) => exact (emitTaken_flagged c e).grows.trans (grows_addSlot _ x false)
  | .bind x false none => exact grows_addValue c x none
  | .bind x false (some e) => exact (emitTaken_flagged c e).grows.trans (grows_addValue _ x none)
  | .multiBind .foreign value targets =>
    exact (emitExpr_flagged value c).grows.trans (emitTargets_grows true targets _)
  | .multiBind .func value targets =>
    exact (emitExpr_flagged value c).grows.trans (emitTargets_grows false targets _)
  | .multiBind .proc value targets =>
    exact (declareTargets_grows targets c).trans (emitExpr_flagged value _).grows
  | .assign (.var x) value =>
    exact ((flagged_markOpt c value.stripped?).trans (emitTaken_flagged _ value)).grows
  | .assign (.place es) value =>
    exact (((flagged_markOpt c value.stripped?).trans (emitTaken_flagged _ value)).trans
      (emitExprs_flagged es _)).grows
  | .scatter vals => exact (emitScatter_flagged vals c).grows
  | .expr e => exact (emitExpr_flagged e c).grows
  | .run true => exact (flagged_atLabel c).grows
  | .run false => exact .refl c

theorem emitClause_grows (o : Option Simple) (c : Ctx) : Grows c (emitClause c o).2 := by
  cases o with
  | none => exact .refl c
  | some s => exact emitSimple_grows s c

theorem grows_binds (binds : List String) (c : Ctx) :
    Grows c (binds.foldl (fun c x => c.addValue x none) c) := by
  induction binds generalizing c with
  | nil => exact .refl c
  | cons x binds ih => exact (grows_addValue c x none).trans (ih _)

mutual

theorem emitStmt_grows : ∀ (s : Stmt) (l : Labels) (c : Ctx), Ordered c →
    Grows c (emitStmt l c s).2
  | .simple s, l, c, _ => by
    rw [emitStmt]
    exact emitSimple_grows s c
  | .forC init cond incr body, l, c, ho => by
    rw [emitStmt]
    have hclause := (emitClause_grows init c.pushValueScope).trans (emitOpt_flagged _ cond).grows
    have hbody := hclause.trans
      (emitStmts_grows body ⟨true, true⟩ _ (hclause.ordered (ordered_push ho)))
    exact grows_pop ho ((hbody.trans (flagged_atLabel _).grows).trans (emitClause_grows incr _))
  | .loop cond body, l, c, ho => by
    rw [emitStmt]
    have hcond := (emitOpt_flagged c cond).grows
    have ho₁ := hcond.ordered ho
    exact hcond.trans (grows_pop ho₁ (emitStmts_grows body _ _ (ordered_push ho₁)))
  | .ite cond thn els, l, c, ho => by
    rw [emitStmt]
    have hcond := (emitExpr_flagged cond c).grows.trans (flagged_atLabel _).grows
    have hthn := (hcond.trans (emitStmts_grows thn l _ (hcond.ordered ho))).trans
      (flagged_atLabel _).grows
    exact (hthn.trans (emitStmts_grows els l _ (hthn.ordered ho))).trans (flagged_atLabel _).grows
  | .block body, l, c, ho => by
    rw [emitStmt]
    exact emitStmts_grows body l c ho
  | .fan binds body, l, c, ho => by
    rw [emitStmt]
    have hbinds := (grows_binds binds c.pushValueScope).trans (flagged_atLabel _).grows
    have hbody := emitStmts_grows body ⟨l.brk, true⟩ _ (hbinds.ordered (ordered_push ho))
    exact (grows_pop ho (hbinds.trans hbody)).trans (flagged_atLabel _).grows
  | .ret vals, l, c, _ => by
    rw [emitStmt]
    exact (((flagged_marks Expr.bare? c vals).trans (flagged_terminated _)).trans
      (emitVals_flagged vals _)).grows
  | .brk, l, c, _ => .refl c
  | .cont, l, c, _ => .refl c

theorem emitStmts_grows : ∀ (ss : List Stmt) (l : Labels) (c : Ctx), Ordered c →
    Grows c (emitStmts l c ss).2
  | [], l, c, _ => .refl c
  | s :: ss, l, c, ho => by
    rw [emitStmts]
    have hs := emitStmt_grows s l c ho
    exact hs.trans (emitStmts_grows ss l _ (hs.ordered ho))

end

/-! ### Expressions -/

mutual

theorem tidyExpr_straight : ∀ (e : Expr) {c : Ctx} {p p' : Point}, Mirrors c p → Bound p →
    tidyExpr p e = some p' → Straight p (emitExpr c e) p'
  | .literal, c, p, p', hm, hb, h => by
    cases h
    exact straight_skip hm hb
  | .name x, c, p, p', hm, hb, h => straight_use hm hb h
  | .move e, c, p, p', hm, hb, h => by
    rw [tidyExpr] at h
    rw [emitExpr]
    cases hx : e.bare? with
    | some x =>
      simp only [hx] at h ⊢
      exact straight_take hm hb h
    | none =>
      simp only [hx] at h ⊢
      exact tidyExpr_straight e hm hb h
  | .copy e, c, p, p', hm, hb, h => by
    rw [tidyExpr] at h
    rw [emitExpr]
    exact tidyExpr_straight e hm hb h
  | .op es, c, p, p', hm, hb, h => by
    rw [tidyExpr] at h
    rw [emitExpr]
    exact tidyExprs_straight es hm hb h
  | .logical l r, c, p, p', hm, hb, h => by
    rw [tidyExpr] at h
    obtain ⟨p₁, h₁, h⟩ := Option.bind_eq_some_iff.mp h
    obtain ⟨p₂, h₂, h⟩ := Option.bind_eq_some_iff.mp h
    have hl := tidyExpr_straight l hm hb h₁
    have hr := tidyExpr_straight r (mirrors_atLabel hl.mirrors) (bound_atLabel hl.bound) h₂
    split at h
    · next hheld =>
      cases h
      -- the right operand leaves what it found, so it does not matter whether it runs
      have hchoice : Safely (Holds p₁.held)
          (Code.ite .skip (emitExpr (emitExpr c l).2.atLabel r).1) (Holds p₂.held) never :=
        Meets.choice (Meets.skip fun m h => hheld ▸ h) hr.meets
      exact ⟨mirrors_atLabel hr.mirrors, bound_atLabel hr.bound, hr.reached.trans hl.reached,
        hl.meets.seq hchoice⟩
    · cases h
  | .call args, c, p, p', hm, hb, h => by
    rw [tidyExpr] at h
    rw [emitExpr]
    exact tidyArgs_straight args hm hb h
  | .insert vals, c, p, p', hm, hb, h => by
    rw [tidyExpr] at h
    rw [emitExpr]
    obtain ⟨hm', hb', hheld, hreached⟩ := mirrors_marks (f := Expr.given?) hm hb vals
    exact (tidyVals_straight vals hm' hb' h).start hheld hreached

theorem tidyExprs_straight : ∀ (es : List Expr) {c : Ctx} {p p' : Point}, Mirrors c p → Bound p →
    tidyExprs p es = some p' → Straight p (emitExprs c es) p'
  | [], c, p, p', hm, hb, h => by
    cases h
    exact straight_skip hm hb
  | e :: es, c, p, p', hm, hb, h => by
    rw [tidyExprs] at h
    obtain ⟨p₁, h₁, h₂⟩ := Option.bind_eq_some_iff.mp h
    have ha := tidyExpr_straight e hm hb h₁
    exact ha.seq (tidyExprs_straight es ha.mirrors ha.bound h₂)

theorem tidyArgs_straight : ∀ (es : List Expr) {c : Ctx} {p p' : Point}, Mirrors c p → Bound p →
    tidyArgs p es = some p' → Straight p (emitArgs c es) p'
  | [], c, p, p', hm, hb, h => by
    cases h
    exact straight_skip hm hb
  | e :: es, c, p, p', hm, hb, h => by
    rw [tidyArgs] at h
    obtain ⟨p₁, h₁, h₂⟩ := Option.bind_eq_some_iff.mp h
    have ha := tidyExpr_straight e (mirrors_markOpt hm e.moved?) (bound_markOpt hb e.moved?) h₁
    exact (ha.seq (tidyArgs_straight es ha.mirrors ha.bound h₂)).start (markOpt_held p e.moved?)
      (markOpt_reached p e.moved?)

theorem tidyVals_straight : ∀ (es : List Expr) {c : Ctx} {p p' : Point}, Mirrors c p → Bound p →
    tidyVals p es = some p' → Straight p (emitVals c es) p'
  | [], c, p, p', hm, hb, h => by
    cases h
    exact straight_skip hm hb
  | e :: es, c, p, p', hm, hb, h => by
    rw [tidyVals] at h
    rw [emitVals]
    cases hx : e.bare? with
    | some x =>
      simp only [hx] at h ⊢
      obtain ⟨p₁, h₁, h₂⟩ := Option.bind_eq_some_iff.mp h
      have ha := straight_take hm hb h₁
      exact ha.seq (tidyVals_straight es ha.mirrors ha.bound h₂)
    | none =>
      simp only [hx] at h ⊢
      obtain ⟨p₁, h₁, h₂⟩ := Option.bind_eq_some_iff.mp h
      have ha := tidyExpr_straight e hm hb h₁
      exact ha.seq (tidyVals_straight es ha.mirrors ha.bound h₂)

end

theorem tidyOpt_straight {o : Option Expr} {c : Ctx} {p p' : Point} (hm : Mirrors c p)
    (hb : Bound p) (h : tidyOpt p o = some p') : Straight p (emitOpt c o) p' := by
  cases o with
  | none =>
    cases h
    exact straight_skip hm hb
  | some e => exact tidyExpr_straight e hm hb h

theorem tidyTaken_straight {e : Expr} {c : Ctx} {p p' : Point} (hm : Mirrors c p) (hb : Bound p)
    (h : tidyTaken p e = some p') : Straight p (emitTaken c e) p' := by
  unfold tidyTaken at h
  unfold emitTaken
  cases hx : e.bare? with
  | some x =>
    simp only [hx] at h ⊢
    exact straight_take hm hb h
  | none =>
    simp only [hx] at h ⊢
    exact tidyExpr_straight e hm hb h

/-! ### Statements without control flow -/

theorem mirrors_addValue {c : Ctx} {p : Point} (h : Mirrors c p) (x : String) :
    Mirrors (c.addValue x none) (p.declare x) := by
  unfold Ctx.addValue
  have henv := h.env
  cases hs : c.scopes with
  | nil => exact absurd hs h.inScope
  | cons s ss =>
    rw [hs] at henv
    exact ⟨congrArg ((x, none) :: ·) henv, h.next, h.ended, h.pending, List.cons_ne_nil _ _⟩

theorem bound_declare {p : Point} (h : Bound p) (x : String) : Bound (p.declare x) := by
  refine ⟨h.held, fun v hv s hs => ?_⟩
  rcases List.mem_cons.mp hv with rfl | hv
  · cases hs
  · exact h.env v hv s hs

theorem mirrors_addSlot {c : Ctx} {p : Point} (h : Mirrors c p) (x : String) (track : Bool) :
    Mirrors (c.addSlot x track) (p.declareSlot x track) := by
  have henv := h.env
  unfold Ctx.addSlot Ctx.addValue
  cases hs : c.scopes with
  | nil => exact absurd hs h.inScope
  | cons s ss =>
    rw [hs] at henv
    have henv' : ((x, some c.next) :: s ++ ss.flatten) = (x, some p.next) :: p.env := by
      rw [h.next, ← henv]
      rfl
    have hnext : c.next + 1 = p.next + 1 := congrArg Nat.succ h.next
    cases track with
    | false => exact ⟨henv', hnext, h.ended, h.pending, List.cons_ne_nil _ _⟩
    | true =>
      refine ⟨henv', hnext, h.ended, ?_, List.cons_ne_nil _ _⟩
      show (x, c.next) :: pendingOf c.live = (x, p.next) :: p.pending
      rw [h.next, h.pending]

theorem bound_declareSlot {p : Point} (h : Bound p) (x : String) (track : Bool) :
    Bound (p.declareSlot x track) := by
  refine ⟨fun i hi => Nat.lt_succ_of_lt (h.held i hi), fun v hv s hs => ?_⟩
  rcases List.mem_cons.mp hv with rfl | hv
  · cases hs
    exact Nat.lt_succ_self _
  · exact Nat.lt_succ_of_lt (h.env v hv s hs)

/-- A new local with its first value. -/
theorem straight_newSlot {c : Ctx} {p p' : Point} {x : String} {track : Bool} (hm : Mirrors c p)
    (hb : Bound p) (h : (p.declareSlot x track).put (x, p.next) = some p') :
    Straight p (.instr (.put c.next), c.addSlot x track) p' := by
  have hput := straight_put (i := (x, p.next)) (mirrors_addSlot hm x track)
    (bound_declareSlot hb x track) (Nat.lt_succ_self _) h
  rw [hm.next]
  exact hput.start rfl rfl

theorem tidyTargets_straight {track : Bool} {gs : List Target} {c : Ctx} {p p' : Point}
    (hm : Mirrors c p) (hb : Bound p) (h : tidyTargets track p gs = some p') :
    Straight p (emitTargets track c gs) p' := by
  induction gs generalizing c p with
  | nil =>
    cases h
    exact straight_skip hm hb
  | cons g gs ih =>
    match g with
    | .new x true =>
      rw [tidyTargets] at h
      obtain ⟨p₁, h₁, h₂⟩ := Option.bind_eq_some_iff.mp h
      have hnew := straight_newSlot hm hb h₁
      exact hnew.seq (ih hnew.mirrors hnew.bound h₂)
    | .new x false => exact (ih (mirrors_addValue hm x) (bound_declare hb x) h).start rfl rfl
    | .place x =>
      rw [tidyTargets] at h
      obtain ⟨p₁, h₁, h₂⟩ := Option.bind_eq_some_iff.mp h
      have hput := straight_store hm hb h₁
      exact hput.seq (ih hput.mirrors hput.bound h₂)

/-- The new variables of a proc call, before the call. -/
theorem tidyDeclare_mirrors (gs : List Target) {c : Ctx} {p : Point} (hm : Mirrors c p)
    (hb : Bound p) : (declareTargets c gs).1 = slots (tidyDeclare p gs).1 ∧
      Mirrors (declareTargets c gs).2 (tidyDeclare p gs).2 ∧ Bound (tidyDeclare p gs).2 ∧
      (tidyDeclare p gs).2.held = p.held ∧ (tidyDeclare p gs).2.reached = p.reached ∧
      p.next ≤ (tidyDeclare p gs).2.next ∧
      ∀ i ∈ (tidyDeclare p gs).1, i.2 < (tidyDeclare p gs).2.next := by
  induction gs generalizing c p with
  | nil => exact ⟨rfl, hm, hb, rfl, rfl, Nat.le_refl _, fun _ hi => absurd hi List.not_mem_nil⟩
  | cons g gs ih =>
    match g with
    | .new x true =>
      obtain ⟨hs, hm', hb', hheld, hreached, hnext, hlt⟩ :=
        ih (mirrors_addSlot hm x true) (bound_declareSlot hb x true)
      refine ⟨?_, hm', hb', hheld, hreached, Nat.le_of_succ_le hnext, fun i hi => ?_⟩
      · show c.next :: _ = p.next :: _
        rw [hs, hm.next]
        rfl
      · rcases List.mem_cons.mp hi with rfl | hi
        · exact hnext
        · exact hlt i hi
    | .new x false =>
      obtain ⟨hs, hm', hb', hheld, hreached, hnext, hlt⟩ :=
        ih (mirrors_addValue hm x) (bound_declare hb x)
      exact ⟨hs, hm', hb', hheld, hreached, hnext, hlt⟩
    | .place x =>
      obtain ⟨hs, hm', hb', hheld, hreached, hnext, hlt⟩ := ih hm hb
      refine ⟨?_, hm', hb', hheld, hreached, hnext, fun i hi => ?_⟩
      · show (c.findValue x).toList ++ _ = slots (_ ++ _)
        rw [hs, findValue_eq hm]
        unfold slots
        rw [List.map_append, List.map_map]
        exact congrArg (· ++ _) (List.map_id _).symm
      · rcases List.mem_append.mp hi with hi | hi
        · obtain ⟨s, hs, rfl⟩ := List.mem_map.mp hi
          exact Nat.lt_of_lt_of_le (lookup_lt hb (Option.mem_toList.mp hs)) hnext
        · exact hlt i hi

theorem tidyPuts_straight {is : List Item} {c : Ctx} {p p' : Point} (hm : Mirrors c p)
    (hb : Bound p) (hlt : ∀ i ∈ is, i.2 < p.next) (h : tidyPuts p is = some p') :
    Straight p (puts (slots is), c) p' := by
  induction is generalizing p with
  | nil =>
    cases h
    exact straight_skip hm hb
  | cons i is ih =>
    rw [tidyPuts] at h
    obtain ⟨p₁, h₁, h₂⟩ := Option.bind_eq_some_iff.mp h
    have hput := straight_put hm hb (hlt i List.mem_cons_self) h₁
    have hnext : p₁.next = p.next := hput.mirrors.next.symm.trans hm.next
    exact hput.seq (ih hput.mirrors hput.bound
      (fun j hj => hnext ▸ hlt j (List.mem_cons_of_mem _ hj)) h₂)

theorem tidyScatter_straight {es : List Expr} {c : Ctx} {p p' : Point} (hm : Mirrors c p)
    (hb : Bound p) (h : tidyScatter p es = some p') : Straight p (emitScatter c es) p' := by
  induction es generalizing c p with
  | nil =>
    cases h
    exact straight_skip hm hb
  | cons e es ih =>
    rw [tidyScatter] at h
    obtain ⟨p₁, h₁, h₂⟩ := Option.bind_eq_some_iff.mp h
    have ha := tidyTaken_straight hm hb h₁
    have hrest := ih (mirrors_markOpt ha.mirrors e.element.bare?)
      (bound_markOpt ha.bound e.element.bare?) h₂
    exact ha.seq (hrest.start (markOpt_held _ _) (markOpt_reached _ _))

theorem tidySimple_straight {s : Simple} {c : Ctx} {p p' : Point} (hm : Mirrors c p)
    (hb : Bound p) (h : tidySimple p s = some p') : Straight p (emitSimple c s) p' := by
  match s with
  | .bind x true none =>
    cases h
    exact (straight_skip (mirrors_addSlot hm x false) (bound_declareSlot hb x false)).start rfl rfl
  | .bind x true (some e) =>
    obtain ⟨p₁, h₁, h₂⟩ := Option.bind_eq_some_iff.mp h
    have ha := tidyTaken_straight hm hb h₁
    exact ha.seq (straight_newSlot ha.mirrors ha.bound h₂)
  | .bind x false none =>
    cases h
    exact (straight_skip (mirrors_addValue hm x) (bound_declare hb x)).start rfl rfl
  | .bind x false (some e) =>
    obtain ⟨p₁, h₁, h₂⟩ := Option.bind_eq_some_iff.mp h
    cases h₂
    have ha := tidyTaken_straight hm hb h₁
    exact ⟨mirrors_addValue ha.mirrors x, bound_declare ha.bound x, ha.reached, ha.meets⟩
  | .multiBind .foreign value targets =>
    obtain ⟨p₁, h₁, h₂⟩ := Option.bind_eq_some_iff.mp h
    have ha := tidyExpr_straight value hm hb h₁
    exact ha.seq (tidyTargets_straight ha.mirrors ha.bound h₂)
  | .multiBind .func value targets =>
    obtain ⟨p₁, h₁, h₂⟩ := Option.bind_eq_some_iff.mp h
    have ha := tidyExpr_straight value hm hb h₁
    exact ha.seq (tidyTargets_straight ha.mirrors ha.bound h₂)
  | .multiBind .proc value targets =>
    obtain ⟨p₁, h₁, h₂⟩ := Option.bind_eq_some_iff.mp h
    obtain ⟨hslots, hm', hb', hheld, hreached, _, hlt⟩ := tidyDeclare_mirrors targets hm hb
    have ha := tidyExpr_straight value hm' hb' h₁
    have hnext : p₁.next = (tidyDeclare p targets).2.next :=
      ha.mirrors.next.symm.trans ((emitExpr_flagged value _).next.trans hm'.next)
    have hputs := tidyPuts_straight ha.mirrors ha.bound (fun i hi => hnext ▸ hlt i hi) h₂
    rw [← hslots] at hputs
    exact (ha.seq hputs).start hheld hreached
  | .assign (.var x) value =>
    obtain ⟨p₁, h₁, h₂⟩ := Option.bind_eq_some_iff.mp h
    have ha := tidyTaken_straight (mirrors_markOpt hm value.stripped?)
      (bound_markOpt hb value.stripped?) h₁
    exact (ha.seq (straight_store ha.mirrors ha.bound h₂)).start (markOpt_held _ _)
      (markOpt_reached _ _)
  | .assign (.place es) value =>
    obtain ⟨p₁, h₁, h₂⟩ := Option.bind_eq_some_iff.mp h
    have ha := tidyTaken_straight (mirrors_markOpt hm value.stripped?)
      (bound_markOpt hb value.stripped?) h₁
    exact (ha.seq (tidyExprs_straight es ha.mirrors ha.bound h₂)).start (markOpt_held _ _)
      (markOpt_reached _ _)
  | .scatter vals => exact tidyScatter_straight hm hb h
  | .expr e => exact tidyExpr_straight e hm hb h
  | .run true =>
    cases h
    exact (straight_skip (mirrors_atLabel hm) (bound_atLabel hb)).start rfl rfl
  | .run false =>
    cases h
    exact straight_skip hm hb

theorem tidyClause_straight {o : Option Simple} {c : Ctx} {p p' : Point} (hm : Mirrors c p)
    (hb : Bound p) (h : tidyClause p o = some p') : Straight p (emitClause c o) p' := by
  cases o with
  | none =>
    cases h
    exact straight_skip hm hb
  | some s => exact tidySimple_straight hm hb h

/-! ### Ways out -/

/-- What is held where a statement is left early. -/
def Exits (k : Heads) : Lib.Outcome → Mem → Prop
  | .normal, _ => False
  | .broke, m => ∃ is, k.brk = some is ∧ Holds is m
  | .continued, m => ∃ is, k.cont = some is ∧ Holds is m
  | .returned, m => Holds [] m
  | .halted, _ => True

/-- The point is reached with these locals held. -/
def At (p : Point) (m : Mem) : Prop := p.reached = true ∧ Holds p.held m

/-- Emitted code: the text goes on at `p'` where the emission goes on. -/
structure Walk (k : Heads) (p : Point) (r : Code × Ctx) (p' : Point) : Prop where
  mirrors : Mirrors r.2 p'
  bound : Bound p'
  meets : Safely (At p) r.1 (At p') (Exits k)

/-- The emission has a label for every head. -/
structure Labelled (l : Labels) (k : Heads) : Prop where
  brk : ∀ is, k.brk = some is → l.brk = true
  cont : ∀ is, k.cont = some is → l.cont = true

/-- What is held at a head was declared before number `n`. -/
def Below (k : Heads) (n : Slot) : Prop :=
  ∀ is, k.brk = some is ∨ k.cont = some is → ∀ i ∈ is, i.2 < n

theorem Below.mono {k : Heads} {m n : Slot} (h : Below k m) (hmn : m ≤ n) : Below k n :=
  fun is hk i hi => Nat.lt_of_lt_of_le (h is hk i hi) hmn

theorem Straight.walk {k : Heads} {p p' : Point} {r : Code × Ctx} (h : Straight p r p') :
    Walk k p r p' := by
  refine ⟨h.mirrors, h.bound, fun m o m' t hm hrun => ?_⟩
  obtain ⟨hg, hend⟩ := h.meets m o m' t hm.2 hrun
  refine ⟨hg, ?_⟩
  cases o with
  | normal => exact ⟨h.reached.trans hm.1, hend⟩
  | broke => exact absurd hend id
  | continued => exact absurd hend id
  | returned => exact absurd hend id
  | halted => trivial

theorem Walk.seq {k : Heads} {p p₁ p₂ : Point} {a b : Code × Ctx} (ha : Walk k p a p₁)
    (hb : Walk k p₁ b p₂) : Walk k p (.seq a.1 b.1, b.2) p₂ :=
  ⟨hb.mirrors, hb.bound, ha.meets.seq hb.meets⟩

theorem leaving_good {lo hi : Slot} {m : Mem} (h : ∀ s, lo ≤ s → m s ≠ .live) :
    (leaving lo hi m).good = true := by
  unfold leaving Event.good
  rw [Bool.not_eq_true', ← Bool.not_eq_true, List.contains_iff_mem]
  intro hmem
  obtain ⟨s, hs, hlive⟩ := List.mem_map.mp hmem
  exact h s (List.mem_range'_1.mp hs).1 hlive

theorem Holds.clear {is : List Item} {m : Mem} {n : Slot} (h : Holds is m)
    (hlt : ∀ i ∈ is, i.2 < n) {s : Slot} (hs : n ≤ s) : m s ≠ .live := by
  intro hlive
  obtain ⟨i, hi, rfl⟩ := List.mem_map.mp ((h s).mp hlive)
  exact absurd (hlt i hi) (Nat.not_lt.mpr hs)

/-- On every way out of a scope its locals hold nothing. -/
theorem scope_meets {k : Heads} {p p' : Point} {c : Code} (lo hi : Slot)
    (hk : Below k lo) (hheld : p'.reached = true → ∀ i ∈ p'.held, i.2 < lo)
    (h : Safely (At p) c (At p') (Exits k)) :
    Safely (At p) (Code.scope lo hi c) (At p') (Exits k) := by
  refine h.closing fun o m ho hend => leaving_good fun s hs => ?_
  cases o with
  | normal => exact hend.2.clear (hheld hend.1) hs
  | broke =>
    obtain ⟨is, his, hm⟩ := hend
    exact hm.clear (hk is (.inl his)) hs
  | continued =>
    obtain ⟨is, his, hm⟩ := hend
    exact hm.clear (hk is (.inr his)) hs
  | returned => exact Holds.clear hend (fun _ hi => absurd hi List.not_mem_nil) hs
  | halted => exact absurd rfl ho

/-! ### Destructor calls -/

theorem pendingOf_cons (e : Entry) (es : List Entry) :
    pendingOf (e :: es) =
      if e.consumed then pendingOf es else (e.name, e.slot) :: pendingOf es := by
  unfold pendingOf
  cases hc : e.consumed <;> simp [hc]

theorem mem_slots_pendingOf {es : List Entry} {s : Slot} (h : s ∈ slots (pendingOf es)) :
    s ∈ es.map Entry.slot := by
  obtain ⟨i, hi, rfl⟩ := List.mem_map.mp h
  obtain ⟨e, he, rfl⟩ := List.mem_map.mp hi
  exact List.mem_map_of_mem (List.mem_filter.mp he).1

theorem holds_congr {is js : List Item} {m : Mem} (h : Holds is m)
    (hs : ∀ s, s ∈ slots is ↔ s ∈ slots js) : Holds js m :=
  fun s => (h s).trans (hs s)

/-- The entries that are not flagged are destroyed, each once. -/
theorem drops_meets {es : List Entry} {is js : List Item} {E : Lib.Outcome → Mem → Prop}
    (hnodup : (es.map Entry.slot).Nodup) (hmem : ∀ s ∈ slots (pendingOf es), s ∈ slots is)
    (hjs : ∀ s, s ∈ slots js ↔ s ∈ slots is ∧ s ∉ slots (pendingOf es)) :
    Safely (Holds is) (drops es) (Holds js) E := by
  induction es generalizing is with
  | nil =>
    refine Meets.skip fun m hm => holds_congr hm fun s => ?_
    rw [hjs]
    exact ⟨fun h => ⟨h, List.not_mem_nil⟩, fun h => h.1⟩
  | cons e es ih =>
    obtain ⟨hnot, hnodup⟩ := List.nodup_cons.mp hnodup
    rw [drops]
    rw [pendingOf_cons] at hmem hjs
    cases hc : e.consumed with
    | true =>
      simp only [hc, if_true] at hmem hjs ⊢
      exact ih hnodup hmem hjs
    | false =>
      simp only [hc, Bool.false_eq_true, if_false] at hmem hjs ⊢
      have hdrop := meets_drop (s := e.slot) (hmem e.slot List.mem_cons_self)
      have hfilter : ∀ s, s ∈ slots (is.filter fun i => i.2 ≠ e.slot) ↔
          s ∈ slots is ∧ s ≠ e.slot := by
        intro s
        rw [mem_slots_filter (f := fun s => decide (s ≠ e.slot)), decide_eq_true_iff]
      refine (hdrop.conseq (fun _ h => h) (fun _ h => h) fun _ _ h => h.elim).seq
        (ih hnodup (fun s hs => (hfilter s).mpr ⟨?_, ?_⟩) fun s => ?_)
      · exact hmem s (List.mem_cons_of_mem _ hs)
      · rintro rfl
        exact hnot (mem_slots_pendingOf hs)
      · rw [hjs, hfilter]
        show _ ∧ ¬s ∈ e.slot :: slots (pendingOf es) ↔ _
        rw [List.mem_cons, not_or, and_assoc]

theorem slots_since {n : Slot} {is : List Item} {s : Slot} :
    s ∈ slots (since n is) ↔ s ∈ slots is ∧ n ≤ s := by
  unfold since
  rw [mem_slots_filter (f := fun s => decide (n ≤ s)), decide_eq_true_iff]

theorem slots_before {n : Slot} {is : List Item} {s : Slot} :
    s ∈ slots (before n is) ↔ s ∈ slots is ∧ s < n := by
  unfold before
  rw [mem_slots_filter (f := fun s => decide (s < n)), decide_eq_true_iff]

theorem since_pendingOf {n : Slot} {new old : List Entry} (hnew : ∀ e ∈ new, n ≤ e.slot)
    (hold : ∀ e ∈ old, e.slot < n) :
    since n (pendingOf (new ++ old)) = pendingOf new ∧
      before n (pendingOf (new ++ old)) = pendingOf old := by
  have hn : ∀ i ∈ pendingOf new, n ≤ i.2 := by
    intro i hi
    obtain ⟨e, he, rfl⟩ := List.mem_map.mp hi
    exact hnew e (List.mem_filter.mp he).1
  have ho : ∀ i ∈ pendingOf old, i.2 < n := by
    intro i hi
    obtain ⟨e, he, rfl⟩ := List.mem_map.mp hi
    exact hold e (List.mem_filter.mp he).1
  unfold since before
  rw [pendingOf_append, List.filter_append, List.filter_append]
  refine ⟨?_, ?_⟩
  · rw [List.filter_eq_self.mpr fun i hi => decide_eq_true (hn i hi),
      List.filter_eq_nil_iff.mpr fun i hi => by simpa using ho i hi, List.append_nil]
  · rw [List.filter_eq_nil_iff.mpr fun i hi => by simpa using hn i hi,
      List.filter_eq_self.mpr fun i hi => decide_eq_true (ho i hi), List.nil_append]

/-- The locals of a scope of the emission are destroyed at its end, if it is reached. -/
theorem pop_meets {k : Heads} {c c₁ : Ctx} {p p' : Point} (ho : Ordered c)
    (hg : Grows c.pushValueScope c₁) (hm : Mirrors c₁ p) (h : p.endScope c.next = some p') :
    (∀ i ∈ p'.held, i.2 < c.next) ∧ Safely (At p) c₁.popValueScope.1 (At p') (Exits k) := by
  obtain ⟨new, old, hlive, hpop, hnew, hold, hnodup, -⟩ := pop_entries ho hg
  have hsince := (since_pendingOf hnew hold).1
  rw [← hlive, hm.pending] at hsince
  unfold Point.endScope at h
  split at h
  · next hend =>
    cases h
    refine ⟨fun i hi => of_decide_eq_true (List.mem_filter.mp hi).2, ?_⟩
    rw [hpop]
    intro m o m' t hat hrun
    obtain ⟨hended, hsame⟩ := hend hat.1
    rw [hm.ended, hended] at hrun
    have hdrops : Safely (Holds p.held) (drops new) (Holds (before c.next p.held)) (Exits k) := by
      refine drops_meets hnodup (fun s hs => ?_) fun s => ?_
      · rw [← hsince, ← hsame] at hs
        exact (slots_since.mp hs).1
      · rw [← hsince, ← hsame, slots_since, slots_before, not_and]
        exact and_congr_right fun hs =>
          ⟨fun hlt _ => Nat.not_le.mpr hlt, fun h => Nat.not_le.mp (h hs)⟩
    exact (hdrops.conseq (fun _ h => h) (fun _ h => ⟨hat.1, h⟩) fun _ _ h => h) m o m' t hat.2 hrun
  · cases h

/-- What closing a value scope does. -/
structure Closes (k : Heads) (n : Slot) (p : Point) (r : Code × Ctx) (p' : Point) : Prop where
  mirrors : Mirrors r.2 p'
  held : ∀ i ∈ p'.held, i.2 < n
  bound : Bound p → ∀ i ∈ p'.held, i.2 < p'.next
  meets : Safely (At p) r.1 (At p') (Exits k)

/-- After a scope the names are those before it. -/
theorem pop_closes {k : Heads} {c c₁ : Ctx} {p p' : Point} (ho : Ordered c) (hs : c.scopes ≠ [])
    (hg : Grows c.pushValueScope c₁) (hm : Mirrors c₁ p) (h : p.endScope c.next = some p') :
    Closes k c.next p c₁.popValueScope { p' with env := c.scopes.flatten } := by
  obtain ⟨hheld, hmeets⟩ := pop_meets (k := k) ho hg hm h
  obtain ⟨new, old, hlive, hpop, hnew, hold, -, -⟩ := pop_entries ho hg
  have hbefore := (since_pendingOf hnew hold).2
  rw [← hlive, hm.pending] at hbefore
  unfold Point.endScope at h
  split at h
  · cases h
    refine ⟨?_, hheld, fun hb i hi => hb.held i (List.mem_filter.mp hi).1, hmeets⟩
    rw [hpop]
    exact ⟨rfl, hm.next, hm.ended, hbefore.symm, hs⟩
  · cases h

theorem bind_holding {h : List Item} {p q : Point} {f : Point → Option Point}
    (hp : (p.holding h).bind f = some q) : (p.reached = true → p.held = h) ∧ f p = some q := by
  unfold Point.holding at hp
  split at hp
  · next hheld => exact ⟨hheld, hp⟩
  · cases hp

theorem endArm_some {n : Slot} {p q : Point} (hp : p.endArm n = some q) :
    q = p ∧ (p.reached = true → ∀ i ∈ p.held, i.2 < n) := by
  unfold Point.endArm at hp
  split at hp
  · next hend =>
    cases hp
    refine ⟨rfl, fun hr i hi => Nat.not_le.mp fun hle => ?_⟩
    have hmem : i ∈ since n p.held := List.mem_filter.mpr ⟨hi, decide_eq_true hle⟩
    rw [hend.2 hr] at hmem
    exact absurd hmem List.not_mem_nil
  · cases hp

theorem bind_endArm {n : Slot} {p q : Point} {f : Point → Option Point}
    (hp : (p.endArm n).bind f = some q) :
    (p.reached = true → ∀ i ∈ p.held, i.2 < n) ∧ f p = some q := by
  obtain ⟨p', h, hf⟩ := Option.bind_eq_some_iff.mp hp
  obtain ⟨rfl, hheld⟩ := endArm_some h
  exact ⟨hheld, hf⟩

theorem mirrors_push {c : Ctx} {p : Point} (h : Mirrors c p) : Mirrors c.pushValueScope p :=
  ⟨h.env, h.next, h.ended, h.pending, List.cons_ne_nil _ _⟩

theorem mirrors_binds {c : Ctx} {p : Point} (hm : Mirrors c p) (hb : Bound p)
    (binds : List String) :
    let c' := binds.foldl (fun c x => c.addValue x none) c
    let p' := binds.foldl (fun p x => p.declare x) p
    Mirrors c' p' ∧ Bound p' ∧ p'.held = p.held ∧ p'.reached = p.reached ∧ p'.next = p.next := by
  induction binds generalizing c p with
  | nil => exact ⟨hm, hb, rfl, rfl, rfl⟩
  | cons x binds ih => exact ih (mirrors_addValue hm x) (bound_declare hb x)

/-- The heads of a loop that leaves what it found. -/
theorem below_head {p : Point} (hb : Bound p) : Below ⟨some p.held, some p.held⟩ p.next := by
  intro is h i hi
  rcases h with h | h
  · cases h
    exact hb.held i hi
  · cases h
    exact hb.held i hi

theorem labelled_head (k : Heads) : Labelled ⟨true, true⟩ k := ⟨fun _ _ => rfl, fun _ _ => rfl⟩

/-- A body that leaves a loop's head as it was is good for every round. -/
theorem loop_meets {k : Heads} {is : List Item} {t : Bool} {cond body incr : Code}
    {p p' : Point} (hp : ∀ m, Holds is m → At p m)
    (hcond : Safely (Holds is) cond (Holds is) never)
    (hbody : Safely (At p) body (At p') (Exits ⟨some is, some is⟩))
    (hincr : Safely (Holds is) incr (Holds is) never)
    (hround : ∀ m, At p' m → Holds is m) :
    Safely (Holds is) (Code.loop t cond body incr) (Holds is)
      (Exits k) := by
  have hweak : ∀ {c : Code}, Safely (Holds is) c (Holds is) never →
      Safely (Holds is) c (Holds is) (Exits k) :=
    fun h => h.conseq (fun _ h => h) (fun _ h => h) fun _ _ h => h.elim
  have hhead : ∀ m, (∃ js, some is = some js ∧ Holds js m) → Holds is m := by
    rintro m ⟨js, hjs, hm⟩
    cases hjs
    exact hm
  exact Meets.loop (fun _ _ => rfl) (fun _ => hweak hcond)
    (hbody.conseq hp hround fun _ _ h => h) (hweak hincr) hhead hhead (fun _ h => h)
    fun _ => trivial

/-! ### Statements -/

theorem tidyReturn_walk {k : Heads} {l : Labels} {vals : List Expr} {c : Ctx} {p p' : Point}
    (ho : Ordered c) (hm : Mirrors c p) (hb : Bound p) (h : tidyReturn p vals = some p') :
    Walk k p (emitStmt l c (.ret vals)) p' := by
  obtain ⟨hm₁, hb₁, hheld₁, -⟩ := mirrors_marks (f := Expr.bare?) hm hb vals
  have ho₁ := (flagged_marks Expr.bare? c vals).grows.ordered ho
  rw [emitStmt]
  unfold tidyReturn at h
  simp only at h hm₁ hb₁ hheld₁ ⊢
  generalize vals.foldl (fun c e => c.markOpt e.bare?) c = c₁ at *
  generalize vals.foldl (fun p e => p.markOpt e.bare?) p = p₁ at *
  generalize vals.filterMap (fun e => e.bare?.bind p.resolve) = kept at h
  split at h
  · next hsame =>
    obtain ⟨p₂, h₂, h⟩ := Option.bind_eq_some_iff.mp h
    split at h
    · next hnone =>
      cases h
      have hvals := tidyVals_straight vals (c := { c₁ with terminated := true })
        (p := { p₁ with held := p.held.filter fun i => i.2 ∈ kept, ended := true })
        ⟨hm₁.env, hm₁.next, rfl, hm₁.pending, hm₁.inScope⟩
        ⟨fun i hi => hb₁.held i (hheld₁ ▸ (List.mem_filter.mp hi).1), hb₁.env⟩ h₂
      -- what is not returned is pending, and is destroyed
      have hdrops : Safely (Holds p.held) (drops c₁.live)
          (Holds (p.held.filter fun i => i.2 ∈ kept)) (Exits k) := by
        refine drops_meets ho₁.nodup (fun s hs => ?_) fun s => ?_
        · rw [hm₁.pending, ← hsame, mem_slots_filter (f := fun s => decide (s ∉ kept))] at hs
          exact hs.1
        · rw [hm₁.pending, ← hsame, mem_slots_filter (f := fun s => decide (s ∉ kept)),
            mem_slots_filter (f := fun s => decide (s ∈ kept)), decide_eq_true_iff,
            decide_eq_true_iff, not_and, not_not]
          exact and_congr_right fun hs => ⟨fun hk _ => hk, fun h => h hs⟩
      have hexit : Safely (Holds p₂.held) (.exit .returned) (At { p₂ with reached := false })
          (Exits k) := Meets.leave fun m hm => hnone ▸ hm
      refine ⟨⟨hvals.mirrors.env, hvals.mirrors.next, hvals.mirrors.ended, hvals.mirrors.pending,
        hvals.mirrors.inScope⟩, ⟨hvals.bound.held, hvals.bound.env⟩, ?_⟩
      exact Meets.conseq (hdrops.seq ((hvals.meets.conseq (fun _ h => h) (fun _ h => h)
        fun _ _ h => h.elim).seq hexit)) (fun m hat => hat.2) (fun _ h => h) fun _ _ h => h
    · cases h
  · cases h

/-- The emission of a list of statements that the text accepts is sound. -/
def BodySound (ss : List Stmt) : Prop :=
  ∀ {k : Heads} {l : Labels} {c : Ctx} {p p' : Point}, Labelled l k → Below k p.next → Ordered c →
    Mirrors c p → Bound p → tidyStmts k p ss = some p' → Walk k p (emitStmts l c ss) p'

theorem loop_walk {body : List Stmt} (hsound : BodySound body) {cond : Option Expr} {k : Heads}
    {l : Labels} {c : Ctx} {p p' : Point} (ho : Ordered c) (hm : Mirrors c p) (hb : Bound p)
    (hr : p.reached = true) (h : tidyStmt k p (.loop cond body) = some p') :
    Walk k p (emitStmt l c (.loop cond body)) p' := by
  rw [tidyStmt] at h
  obtain ⟨p₁, h₁, h⟩ := Option.bind_eq_some_iff.mp h
  obtain ⟨hheld, h⟩ := bind_holding h
  obtain ⟨p₂, h₂, h⟩ := Option.bind_eq_some_iff.mp h
  obtain ⟨p₃, h₃, h⟩ := Option.bind_eq_some_iff.mp h
  obtain ⟨hheld₃, h⟩ := bind_holding h
  cases h
  have hq := tidyOpt_straight hm hb h₁
  have hr₁ : p₁.reached = true := hq.reached.trans hr
  have ho₁ := (emitOpt_flagged c cond).grows.ordered ho
  have hn : (emitOpt c cond).2.next = p₁.next := hq.mirrors.next
  have hbody := hsound (labelled_head ⟨some p₁.held, some p₁.held⟩) (below_head hq.bound)
    (ordered_push ho₁) (mirrors_push hq.mirrors) hq.bound h₂
  have hgrow := emitStmts_grows body ⟨true, true⟩ _ (ordered_push ho₁)
  rw [← hn] at h₃
  have hpop := pop_closes (k := ⟨some p₁.held, some p₁.held⟩) ho₁ hq.mirrors.inScope hgrow
    hbody.mirrors h₃
  have hnext : p₁.next ≤ p₃.next := hn ▸ Nat.le_trans hgrow.next (Nat.le_of_eq hpop.mirrors.next)
  rw [emitStmt]
  refine ⟨⟨hpop.mirrors.env.trans hq.mirrors.env, hpop.mirrors.next, hpop.mirrors.ended,
    hpop.mirrors.pending, hpop.mirrors.inScope⟩, ⟨fun i hi => ?_, fun v hv s hs => ?_⟩, ?_⟩
  · exact Nat.lt_of_lt_of_le (hq.bound.held i hi) hnext
  · exact Nat.lt_of_lt_of_le (hq.bound.env v hv s hs) hnext
  · have hround := fun hi => scope_meets (c := .seq _ _) _ hi (hn ▸ below_head hq.bound)
      (fun _ => hpop.held) (hbody.meets.seq hpop.meets)
    have hcond : Safely (Holds p₁.held) (emitOpt c cond).1 (Holds p₁.held) never := by
      have hmeets := hq.meets
      rw [← hheld hr₁] at hmeets
      exact hmeets
    have hskip : Safely (Holds p₁.held) .skip (Holds p₁.held) never := Meets.skip fun _ h => h
    exact Meets.conseq (loop_meets (fun m hm => ⟨hr₁, hm⟩) hcond (hround _) hskip
      fun m hm => hheld₃ hm.1 ▸ hm.2) (fun m hm => (hheld hr₁).symm ▸ hm.2)
      (fun m hm => ⟨rfl, hm⟩) fun _ _ h => h

theorem forC_walk {body : List Stmt} (hsound : BodySound body) {init incr : Option Simple}
    {cond : Option Expr} {k : Heads} {l : Labels} {c : Ctx} {p p' : Point} (hk : Below k p.next)
    (ho : Ordered c) (hm : Mirrors c p) (hb : Bound p) (hr : p.reached = true)
    (h : tidyStmt k p (.forC init cond incr body) = some p') :
    Walk k p (emitStmt l c (.forC init cond incr body)) p' := by
  rw [tidyStmt] at h
  obtain ⟨p₁, h₁, h⟩ := Option.bind_eq_some_iff.mp h
  obtain ⟨p₂, h₂, h⟩ := Option.bind_eq_some_iff.mp h
  obtain ⟨hheld₂, h⟩ := bind_holding h
  obtain ⟨p₃, h₃, h⟩ := Option.bind_eq_some_iff.mp h
  obtain ⟨harm, h⟩ := bind_endArm h
  obtain ⟨hheld₃, h⟩ := bind_holding h
  obtain ⟨p₄, h₄, h⟩ := Option.bind_eq_some_iff.mp h
  obtain ⟨hheld₄, h⟩ := bind_holding h
  obtain ⟨p₅, h₅, h⟩ := Option.bind_eq_some_iff.mp h
  cases h
  -- the clauses and the body share the value scope of the `for`
  have hinit := tidyClause_straight (mirrors_push hm) hb h₁
  have hq := tidyOpt_straight hinit.mirrors hinit.bound h₂
  have hr₂ : p₂.reached = true := hq.reached.trans (hinit.reached.trans hr)
  have hgrow₂ := (emitClause_grows init c.pushValueScope).trans (emitOpt_flagged _ cond).grows
  have ho₂ := hgrow₂.ordered (ordered_push ho)
  have hbody := hsound (labelled_head ⟨some p₂.held, some p₂.held⟩) (below_head hq.bound) ho₂
    hq.mirrors hq.bound h₃
  have hgrow₃ := emitStmts_grows body ⟨true, true⟩ _ ho₂
  have hnext₃ : p₂.next ≤ p₃.next := by
    rw [← hq.mirrors.next, ← hbody.mirrors.next]
    exact hgrow₃.next
  have hincr := tidyClause_straight
    (c := (emitStmts ⟨true, true⟩ (emitOpt (emitClause c.pushValueScope init).2 cond).2
      body).2.atLabel)
    (p := { p₃ with held := p₂.held, ended := false, reached := true })
    ⟨hbody.mirrors.env, hbody.mirrors.next, rfl, hbody.mirrors.pending, hbody.mirrors.inScope⟩
    ⟨fun i hi => Nat.lt_of_lt_of_le (hq.bound.held i hi) hnext₃, hbody.bound.env⟩ h₄
  have hr₄ : p₄.reached = true := hincr.reached
  have hgrow := ((hgrow₂.trans hgrow₃).trans (flagged_atLabel _).grows).trans
    (emitClause_grows incr _)
  rw [← hm.next] at h₅
  have hpop := pop_closes (k := k) ho hm.inScope hgrow hincr.mirrors h₅
  have hnext : p.next ≤ p₅.next := by
    rw [← hm.next]
    exact Nat.le_trans hgrow.next (Nat.le_of_eq hpop.mirrors.next)
  rw [emitStmt]
  refine ⟨⟨hpop.mirrors.env.trans hm.env, hpop.mirrors.next, hpop.mirrors.ended,
    hpop.mirrors.pending, hpop.mirrors.inScope⟩, ⟨hpop.bound hincr.bound, fun v hv s hs => ?_⟩, ?_⟩
  · exact Nat.lt_of_lt_of_le (hb.env v hv s hs) hnext
  · have hcond : Safely (Holds p₂.held) (emitOpt (emitClause c.pushValueScope init).2 cond).1
        (Holds p₂.held) never := by
      have hmeets := hq.meets
      rw [← hheld₂ hr₂] at hmeets
      exact hmeets
    have hround := scope_meets (emitOpt (emitClause c.pushValueScope init).2 cond).2.next
      (emitStmts ⟨true, true⟩ (emitOpt (emitClause c.pushValueScope init).2 cond).2 body).2.next
      (hq.mirrors.next ▸ below_head hq.bound) (hq.mirrors.next ▸ harm) hbody.meets
    have hincr' := hincr.meets.conseq (fun _ h => h) (fun m hm => hheld₄ hr₄ ▸ hm) fun _ _ h => h
    have hloop := loop_meets (k := k) (t := cond.isSome) (fun m hm => ⟨hr₂, hm⟩) hcond hround hincr'
      fun m hm => hheld₃ hm.1 ▸ hm.2
    have hfor := (hinit.walk (k := k)).meets.seq ((Meets.conseq hloop
      (fun m hm => hheld₂ hr₂ ▸ hm.2) (fun m hm => ⟨hr₄, (hheld₄ hr₄).symm ▸ hm⟩)
      fun _ _ h => h).seq hpop.meets)
    exact scope_meets (c := .seq _ (.seq (.loop _ _ _ _) _)) _ _ (hm.next ▸ hk)
      (fun _ => hpop.held) hfor

/-- What `joinArms` leaves is held after either arm. -/
theorem joinArms_at {thn els p' : Point} (h : joinArms thn els = some p') :
    (∀ m, At thn m → At p' m) ∧ (∀ m, At els m → At p' m) := by
  unfold joinArms at h
  split at h
  · next hthn =>
    cases h
    exact ⟨fun m hm => absurd (hthn.symm.trans hm.1) Bool.false_ne_true, fun m hm => hm⟩
  · split at h
    · next hels =>
      cases h
      exact ⟨fun m hm => ⟨rfl, hm.2⟩, fun m hm => absurd (hels.symm.trans hm.1) Bool.false_ne_true⟩
    · next hels =>
      split at h
      · next hsame =>
        cases h
        exact ⟨fun m hm => ⟨Bool.of_not_eq_false hels, hsame ▸ hm.2⟩, fun m hm => hm⟩
      · cases h

/-- `joinArms` goes on where the emission of the second arm ends. -/
theorem joinArms_mirrors {thn els p' : Point} {c : Ctx} (h : joinArms thn els = some p')
    (hm : Mirrors c els) (hb : Bound els) (hthn : ∀ i ∈ thn.held, i.2 < els.next) :
    Mirrors c.atLabel p' ∧ Bound p' := by
  unfold joinArms at h
  split at h
  · cases h
    exact ⟨mirrors_atLabel hm, bound_atLabel hb⟩
  · split at h
    · cases h
      exact ⟨⟨hm.env, hm.next, rfl, hm.pending, hm.inScope⟩, ⟨hthn, hb.env⟩⟩
    · split at h
      · cases h
        exact ⟨mirrors_atLabel hm, bound_atLabel hb⟩
      · cases h

theorem ite_walk {thn els : List Stmt} (hthn : BodySound thn) (hels : BodySound els) {cond : Expr}
    {k : Heads} {l : Labels} {c : Ctx} {p p' : Point} (hl : Labelled l k) (hk : Below k p.next)
    (ho : Ordered c) (hm : Mirrors c p) (hb : Bound p) (hr : p.reached = true)
    (h : tidyStmt k p (.ite cond thn els) = some p') :
    Walk k p (emitStmt l c (.ite cond thn els)) p' := by
  rw [tidyStmt] at h
  obtain ⟨p₁, h₁, h⟩ := Option.bind_eq_some_iff.mp h
  obtain ⟨p₂, h₂, h⟩ := Option.bind_eq_some_iff.mp h
  obtain ⟨harm₂, h⟩ := bind_endArm h
  obtain ⟨p₃, h₃, h⟩ := Option.bind_eq_some_iff.mp h
  obtain ⟨harm₃, h⟩ := bind_endArm h
  have hq := tidyExpr_straight cond hm hb h₁
  have hr₁ : p₁.reached = true := hq.reached.trans hr
  have hgrow₁ := (emitExpr_flagged cond c).grows.trans (flagged_atLabel _).grows
  have ho₁ := hgrow₁.ordered ho
  have hk₁ : Below k p₁.next := by
    rw [← hq.mirrors.next, (emitExpr_flagged cond c).next, hm.next]
    exact hk
  have ha := hthn (p := p₁.atLabel) hl hk₁ ho₁ (mirrors_atLabel hq.mirrors)
    (bound_atLabel hq.bound) h₂
  have hgrow₂ := (emitStmts_grows thn l _ ho₁).trans (flagged_atLabel _).grows
  have ho₂ := hgrow₂.ordered ho₁
  have hnext₂ : p₁.next ≤ p₂.next := by
    rw [← hq.mirrors.next, ← ha.mirrors.next]
    exact hgrow₂.next
  -- the second arm begins with what was held before the first
  have hbels := hels (p := { p₂ with held := p₁.held, ended := false, reached := true }) hl
    (hk₁.mono hnext₂) ho₂
    ⟨ha.mirrors.env, ha.mirrors.next, rfl, ha.mirrors.pending, ha.mirrors.inScope⟩
    ⟨fun i hi => Nat.lt_of_lt_of_le (hq.bound.held i hi) hnext₂, ha.bound.env⟩ h₃
  have hnext₃ : p₂.next ≤ p₃.next := by
    rw [← ha.mirrors.next, ← hbels.mirrors.next]
    exact (emitStmts_grows els l _ ho₂).next
  obtain ⟨hm', hb'⟩ := joinArms_mirrors h hbels.mirrors hbels.bound fun i hi =>
    Nat.lt_of_lt_of_le (ha.bound.held i hi) hnext₃
  obtain ⟨hat₂, hat₃⟩ := joinArms_at h
  rw [emitStmt]
  refine ⟨hm', hb', ?_⟩
  have hfirst := scope_meets (emitExpr c cond).2.next
    (emitStmts l (emitExpr c cond).2.atLabel thn).2.next (hq.mirrors.next ▸ hk₁)
    (hq.mirrors.next ▸ harm₂) ha.meets
  have hsecond := scope_meets (emitStmts l (emitExpr c cond).2.atLabel thn).2.next
    (emitStmts l (emitStmts l (emitExpr c cond).2.atLabel thn).2.atLabel els).2.next
    (ha.mirrors.next ▸ hk₁.mono hnext₂) (ha.mirrors.next ▸ harm₃) hbels.meets
  exact hq.walk.meets.seq (Meets.choice
    (hfirst.conseq (fun m hm => hm) hat₂ fun _ _ h => h)
    (hsecond.conseq (fun m hm => ⟨rfl, hm.2⟩) hat₃ fun _ _ h => h))

theorem fan_walk {body : List Stmt} (hsound : BodySound body) {binds : List String} {k : Heads}
    {l : Labels} {c : Ctx} {p p' : Point} (hl : Labelled l k) (hk : Below k p.next)
    (ho : Ordered c) (hm : Mirrors c p) (hb : Bound p) (hr : p.reached = true)
    (h : tidyStmt k p (.fan binds body) = some p') :
    Walk k p (emitStmt l c (.fan binds body)) p' := by
  rw [tidyStmt] at h
  obtain ⟨p₂, h₂, h⟩ := Option.bind_eq_some_iff.mp h
  obtain ⟨p₃, h₃, h⟩ := Option.bind_eq_some_iff.mp h
  obtain ⟨hheld₃, h⟩ := bind_holding h
  cases h
  obtain ⟨hm₁, hb₁, hheld₁, hreached₁, hnext₁⟩ := mirrors_binds (mirrors_push hm) hb binds
  have hgrow₁ := (grows_binds binds c.pushValueScope).trans (flagged_atLabel _).grows
  have ho₁ := hgrow₁.ordered (ordered_push ho)
  have hkeep : Below ⟨k.brk, some p.held⟩ p.next := by
    rintro is (his | his)
    · exact hk is (.inl his)
    · cases his
      exact hb.held
  have hbody := hsound (l := ⟨l.brk, true⟩) (k := ⟨k.brk, some p.held⟩)
    (p := (binds.foldl (fun (p : Point) x => p.declare x) p).atLabel) ⟨hl.brk, fun _ _ => rfl⟩
    (hkeep.mono (Nat.le_of_eq hnext₁.symm)) ho₁ (mirrors_atLabel hm₁) (bound_atLabel hb₁) h₂
  have hgrow := hgrow₁.trans (emitStmts_grows body ⟨l.brk, true⟩ _ ho₁)
  rw [← hm.next] at h₃
  have hpop := pop_closes (k := ⟨k.brk, some p.held⟩) ho hm.inScope hgrow hbody.mirrors h₃
  have hnext : p.next ≤ p₃.next := by
    rw [← hm.next]
    exact Nat.le_trans hgrow.next (Nat.le_of_eq hpop.mirrors.next)
  rw [emitStmt]
  refine ⟨⟨hpop.mirrors.env.trans hm.env, hpop.mirrors.next, rfl, hpop.mirrors.pending,
    hpop.mirrors.inScope⟩, ⟨fun i hi => ?_, fun v hv s hs => ?_⟩, ?_⟩
  · exact Nat.lt_of_lt_of_le (hb.held i hi) hnext
  · exact Nat.lt_of_lt_of_le (hb.env v hv s hs) hnext
  · have hrow := fun hi => scope_meets (c := .seq _ _) c.next hi (hm.next ▸ hkeep)
      (fun _ => hpop.held) (hbody.meets.seq hpop.meets)
    have hrow' := fun hi => (hrow hi).conseq
      (fun m (hm : Holds p.held m) => ⟨hreached₁.trans hr, hheld₁ ▸ hm⟩)
      (fun m hm => hheld₃ hm.1 ▸ hm.2) fun _ _ h => h
    have hcont : ∀ m, Exits ⟨k.brk, some p.held⟩ .continued m → Holds p.held m := by
      rintro m ⟨is, his, hm⟩
      cases his
      exact hm
    exact Meets.conseq (Meets.rows (E := Exits k) (hrow' _) (fun _ h => h) hcont (fun _ h => h)
      fun _ => trivial) (fun m hm => hm.2) (fun m hm => ⟨rfl, hm⟩) fun _ _ h => h

mutual

theorem tidyStmt_walk : ∀ (s : Stmt) {k : Heads} {l : Labels} {c : Ctx} {p p' : Point},
    Labelled l k → Below k p.next → Ordered c → Mirrors c p → Bound p → p.reached = true →
    tidyStmt k p s = some p' → Walk k p (emitStmt l c s) p'
  | .simple s, k, l, c, p, p', _, _, _, hm, hb, _, h => by
    rw [tidyStmt] at h
    rw [emitStmt]
    exact (tidySimple_straight hm hb h).walk
  | .forC init cond incr body, k, l, c, p, p', _, hk, ho, hm, hb, hr, h =>
    forC_walk (tidyStmts_walk body) hk ho hm hb hr h
  | .loop cond body, k, l, c, p, p', _, _, ho, hm, hb, hr, h =>
    loop_walk (tidyStmts_walk body) ho hm hb hr h
  | .ite cond thn els, k, l, c, p, p', hl, hk, ho, hm, hb, hr, h =>
    ite_walk (tidyStmts_walk thn) (tidyStmts_walk els) hl hk ho hm hb hr h
  | .block body, k, l, c, p, p', hl, hk, ho, hm, hb, _, h => by
    rw [tidyStmt] at h
    obtain ⟨p₁, h₁, h₂⟩ := Option.bind_eq_some_iff.mp h
    obtain ⟨rfl, hheld⟩ := endArm_some h₂
    have hbody := tidyStmts_walk body hl hk ho hm hb h₁
    rw [emitStmt]
    refine ⟨hbody.mirrors, hbody.bound, scope_meets _ _ (hm.next ▸ hk) ?_ hbody.meets⟩
    rw [hm.next]
    exact hheld
  | .fan binds body, k, l, c, p, p', hl, hk, ho, hm, hb, hr, h =>
    fan_walk (tidyStmts_walk body) hl hk ho hm hb hr h
  | .ret vals, k, l, c, p, p', _, _, ho, hm, hb, _, h => tidyReturn_walk ho hm hb h
  | .brk, k, l, c, p, p', hl, _, _, hm, hb, _, h => by
    rw [tidyStmt] at h
    unfold leaveLoop at h
    split at h
    · next hhead =>
      cases h
      rw [emitStmt, if_pos (hl.brk _ hhead)]
      exact ⟨⟨hm.env, hm.next, hm.ended, hm.pending, hm.inScope⟩, ⟨hb.held, hb.env⟩,
        Meets.leave fun m hat => ⟨p.held, hhead, hat.2⟩⟩
    · cases h
  | .cont, k, l, c, p, p', hl, _, _, hm, hb, _, h => by
    rw [tidyStmt] at h
    unfold leaveLoop at h
    split at h
    · next hhead =>
      cases h
      rw [emitStmt, if_pos (hl.cont _ hhead)]
      exact ⟨⟨hm.env, hm.next, hm.ended, hm.pending, hm.inScope⟩, ⟨hb.held, hb.env⟩,
        Meets.leave fun m hat => ⟨p.held, hhead, hat.2⟩⟩
    · cases h

theorem tidyStmts_walk : ∀ (ss : List Stmt), BodySound ss
  | [], k, l, c, p, p', _, _, _, hm, hb, h => by
    cases h
    exact ⟨hm, hb, Meets.skip fun _ h => h⟩
  | s :: ss, k, l, c, p, p', hl, hk, ho, hm, hb, h => by
    rw [tidyStmts] at h
    split at h
    · next hr =>
      obtain ⟨p₁, h₁, h₂⟩ := Option.bind_eq_some_iff.mp h
      have hs := tidyStmt_walk s hl hk ho hm hb hr h₁
      have hgrow := emitStmt_grows s l c ho
      have hk₁ : Below k p₁.next := by
        rw [← hs.mirrors.next]
        exact (hm.next.symm ▸ hk : Below k c.next).mono hgrow.next
      rw [emitStmts]
      exact hs.seq (tidyStmts_walk ss hl hk₁ (hgrow.ordered ho) hs.mirrors hs.bound h₂)
    · cases h

end

/-- Every path through the code of a tidy body disposes of every value once. -/
theorem dropsOnce_of_tidy {params : List String} {body : List Stmt} (h : tidy params body = true) :
    DropsOnce params body := by
  obtain ⟨p', h⟩ := Option.isSome_iff_exists.mp h
  obtain ⟨p₁, h₁, h₂⟩ := Option.bind_eq_some_iff.mp h
  -- the first scope is opened in an empty context
  have hempty : Ordered ⟨[], [], false, 0⟩ :=
    ⟨fun _ he => absurd he List.not_mem_nil, fun _ he => absurd he List.not_mem_nil, List.nodup_nil⟩
  have hopen : Grows (Ctx.pushValueScope ⟨[], [], false, 0⟩) (entryCtx params) :=
    ⟨rfl, rfl, Nat.le_refl _, [], [], rfl, fun _ he => absurd he List.not_mem_nil, List.nodup_nil,
      rfl⟩
  have hm : Mirrors (entryCtx params) (entryPoint params) :=
    ⟨List.append_nil _, rfl, rfl, rfl, List.cons_ne_nil _ _⟩
  have hb : Bound (entryPoint params) := by
    refine ⟨fun _ hi => absurd hi List.not_mem_nil, fun v hv s hs => ?_⟩
    obtain ⟨x, -, rfl⟩ := List.mem_map.mp hv
    cases hs
  have hk : Below ⟨none, none⟩ 0 := by
    rintro is (his | his)
    · cases his
    · cases his
  have ho := hopen.ordered (ordered_push hempty)
  have hlabels : Labelled ⟨false, false⟩ ⟨none, none⟩ := by
    refine ⟨fun _ his => ?_, fun _ his => ?_⟩
    · cases his
    · cases his
  have hbody := tidyStmts_walk body hlabels hk ho hm hb h₁
  obtain ⟨hheld, hpop⟩ := pop_meets (k := ⟨none, none⟩) hempty
    (hopen.trans (emitStmts_grows body ⟨false, false⟩ _ ho)) hbody.mirrors h₂
  have hscope := fun hi => scope_meets (c := .seq _ _) 0 hi hk (fun _ => hheld)
    (hbody.meets.seq hpop)
  have hstart : At (entryPoint params) noValue :=
    ⟨rfl, fun s => ⟨fun h => Status.noConfusion h, fun h => absurd h List.not_mem_nil⟩⟩
  intro o m t hrun
  exact (hscope _ noValue o m t hstart hrun).1

/-- `obj_close(move x);` -/
def closeObject (x : String) : Stmt := .simple (.expr (.call [.move (.name x)]))

/-- A `for` opens an object in each round and closes it in both arms, one of which leaves the loop:
`obj_open()(h:); for { obj_open()(g:); peek(g); if (c) { obj_close(move g); break; }
else { obj_close(move g); } } peek(h);` -/
def pollObjects : List Stmt :=
  [openObject,
    .loop none [.simple (.multiBind .foreign (.call []) [.new "g" true]),
      .simple (.expr (.call [.name "g"])),
      .ite (.name "c") [closeObject "g", .brk] [closeObject "g"]],
    .simple (.expr (.call [.name "h"]))]

theorem pollObjects_dropsOnce :
    DropsOnce ["c"] pollObjects ∧
      (emitStmts ⟨false, false⟩ (entryCtx ["c"]) pollObjects).2.popValueScope.1 =
        .seq (.instr (.drop 0)) .skip :=
  ⟨dropsOnce_of_tidy (by decide), by decide⟩

end Arche.Codegen.Drops
