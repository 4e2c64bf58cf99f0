import Arche.Semantic.Writes

/-!
# Writes on the paths of an accepted body

A variable refers to what it was declared for, or to what its name was given on the
way: this is the invariant (`Inv`), and it needs nothing of the walk but that both
have the same variables in scope. What the walk adds is that an assignment that goes
by the name the storage was declared with passes its checks (`Passes`), and that a
column it collects is listed (`Clean`).

1. `exec_sound`: every write on a path of an accepted body is good, if those are that
   the walk does not look at.
-/

namespace Arche.Semantic.Writes

open Arche.Lib
open Views (TyKind)

/-! ## What the walk knows of a path -/

/-- What a variable refers to is what it was declared for, or what its name was given. -/
def Var.Sound (A : List (String × Views.Expr)) (v : Var) : Prop :=
  v.storage = .other ∨ v.storage = v.decl.storage ∨ Aliases A v.decl.name v.storage

/-- The variables on the path are those the walk has in scope. -/
structure Inv (A : List (String × Views.Expr)) (vs : List Decl) (r : List Var) : Prop where
  decls : r.map Var.decl = vs
  sound : ∀ v ∈ r, v.Sound A

/-- `vs` is what was in scope before some declarations. -/
def Under (A : List (String × Views.Expr)) (vs : List Decl) (r : List Var) : Prop :=
  ∃ ext, Inv A (ext ++ vs) r

section Scopes

variable {A : List (String × Views.Expr)} {vs ext : List Decl} {r s s₁ : List Var} {x : String}

theorem Inv.under (h : Inv A vs r) : Under A vs r := ⟨[], h⟩

theorem Inv.under_append (h : Inv A (ext ++ vs) r) : Under A vs r := ⟨ext, h⟩

theorem Under.of_append (h : Under A (ext ++ vs) r) : Under A vs r := by
  obtain ⟨ext', h⟩ := h
  exact ⟨ext' ++ ext, by rwa [List.append_assoc]⟩

/-- What a scope leaves behind. -/
theorem cutBack_inv (hs : Inv A vs s) (h : Under A vs s₁) : Inv A vs (cutBack s s₁) := by
  obtain ⟨ext, h⟩ := h
  have hlen : s₁.length - s.length = ext.length := by
    have h₁ : s₁.length = (ext ++ vs).length := by rw [← h.decls, List.length_map]
    have h₂ : s.length = vs.length := by rw [← hs.decls, List.length_map]
    rw [h₁, h₂, List.length_append, Nat.add_sub_cancel]
  refine ⟨?_, fun v hv => h.sound v (List.mem_of_mem_drop hv)⟩
  rw [cutBack, hlen, List.map_drop, h.decls, List.drop_left]

theorem findVar_decl (r : List Var) (x : String) :
    (findVar x r).map Var.decl = find x (r.map Var.decl) := by
  rw [findVar, find, List.find?_map]
  rfl

theorem Inv.find (h : Inv A vs r) {v : Var} (hv : findVar x r = some v) :
    find x vs = some v.decl ∧ v.decl.name = x ∧ v.Sound A := by
  refine ⟨?_, ?_, h.sound v (List.mem_of_find?_eq_some hv)⟩
  · rw [← h.decls, ← findVar_decl, hv, Option.map_some]
  · simpa using List.find?_some hv

theorem Inv.cons (h : Inv A vs r) {v : Var} (hv : v.Sound A) : Inv A (v.decl :: vs) (v :: r) := by
  refine ⟨by rw [List.map_cons, h.decls], fun w hw => ?_⟩
  rcases List.mem_cons.mp hw with rfl | hw
  · exact hv
  · exact h.sound w hw

theorem Inv.setStorage (h : Inv A vs r) {st : Storage} (hst : st = .other ∨ Aliases A x st) :
    Inv A vs (setStorage x st r) := by
  induction r generalizing vs with
  | nil => exact h
  | cons v r ih =>
    have hr : Inv A (r.map Var.decl) r := ⟨rfl, fun w hw => h.sound w (List.mem_cons_of_mem _ hw)⟩
    rw [← h.decls, List.map_cons, Writes.setStorage]
    split
    · next hx =>
      refine hr.cons (v := { v with storage := st }) ?_
      have hx : v.decl.name = x := beq_iff_eq.mp hx
      rcases hst with hst | hst
      · exact .inl hst
      · exact .inr (.inr (hx ▸ hst))
    · exact (ih hr).cons (h.sound v List.mem_cons_self)

end Scopes

/-! ### Values -/

section Values

variable {X : Context} {A : List (String × Views.Expr)} {vs : List Decl} {r : List Var}
  {s : Storage}

theorem Aliases.reaches {x : String} (h : Aliases A x s) : Reaches A x s := by
  obtain ⟨home, hhome, h⟩ := h
  exact ⟨home, hhome, h.to_reflTransGen⟩

/-- A name given a value aliases what the value is a view of. -/
theorem Reaches.given {x y : String} {e : Views.Expr} (hx : (x, e) ∈ A) (hy : y ∈ viewed e)
    (h : Reaches A y s) : Aliases A x s := by
  obtain ⟨home, hhome, h⟩ := h
  exact ⟨home, hhome, .head' ⟨e, hx, hy⟩ h⟩

theorem Decl.storage_home {d : Decl} {h : String} (hd : d.storage.home? = some h) : d.name = h := by
  unfold Decl.storage at hd
  split at hd
  · exact Option.some.inj hd
  · split at hd
    · exact Option.some.inj hd
    · cases hd

/-- A storage other than `other` has a name. -/
theorem Storage.home_of_ne {s : Storage} (h : s ≠ .other) : ∃ x, s.home? = some x := by
  cases s with
  | param x => exact ⟨x, rfl⟩
  | const x => exact ⟨x, rfl⟩
  | column x => exact ⟨x, rfl⟩
  | other => exact absurd rfl h

theorem Var.Sound.reaches {v : Var} (h : v.Sound A) :
    v.storage = .other ∨ Reaches A v.decl.name v.storage := by
  rcases h with h | h | h
  · exact .inl h
  · by_cases ho : v.storage = .other
    · exact .inl ho
    · obtain ⟨x, hx⟩ := Storage.home_of_ne ho
      have hname : v.decl.name = x := Decl.storage_home (h ▸ hx)
      exact .inr ⟨x, hx, hname ▸ .refl⟩
  · exact .inr h.reaches

/-- A name denotes an array constant, or a variable of the path. -/
theorem denotes_name {x : String} (h : Denotes X r (.name x) s) :
    (X.constArray x = true ∧ s = .const x) ∨ s = .other ∨
      ∃ v, findVar x r = some v ∧ s = v.storage := by
  simp only [Denotes] at h
  rcases h with h | h
  · exact .inl h
  · cases hv : findVar x r with
    | none =>
      rw [hv] at h
      exact .inr (.inl h)
    | some v =>
      rw [hv] at h
      exact .inr (.inr ⟨v, rfl, h⟩)

theorem Inv.denotes_name (hr : Inv A vs r) {x : String} (h : Denotes X r (.name x) s) :
    s = .other ∨ Reaches A x s := by
  rcases Writes.denotes_name h with ⟨-, rfl⟩ | h | ⟨v, hv, rfl⟩
  · exact .inr ⟨x, rfl, .refl⟩
  · exact .inl h
  · obtain ⟨-, hname, hsound⟩ := hr.find hv
    exact hname ▸ hsound.reaches

mutual

/-- A value is a view of what its names reach. -/
theorem Inv.denotes (hr : Inv A vs r) : ∀ e, Denotes X r e s →
    s = .other ∨ ∃ y ∈ viewed e, Reaches A y s
  | .external, h => .inl (by simpa only [Denotes] using h)
  | .literal, h => .inl (by simpa only [Denotes] using h)
  | .name x, h => by
    rcases hr.denotes_name h with h | h
    · exact .inl h
    · exact .inr ⟨x, by simp [viewed], h⟩
  | .slice b, h => by
    simp only [Denotes] at h
    simpa only [viewed] using hr.denotes b h
  | .index k b, h => by
    simp only [Denotes] at h
    rw [viewed]
    split at h
    · next hk =>
      rw [if_pos hk]
      exact hr.denotes b h
    · exact .inl h
  | .move e, h => by
    simp only [Denotes] at h
    simpa only [viewed] using hr.denotes e h
  | .paren e, h => by
    simp only [Denotes] at h
    simpa only [viewed] using hr.denotes e h
  | .copy k e, h => by
    simp only [Denotes] at h
    rw [viewed]
    split at h
    · exact .inl h
    · next hk =>
      rw [if_neg hk]
      exact hr.denotes e h
  | .call k args, h => by
    simp only [Denotes] at h
    rw [viewed]
    rcases h with h | ⟨hk, h⟩
    · exact .inl h
    · rw [if_pos hk]
      exact hr.anyDenotes args h

theorem Inv.anyDenotes (hr : Inv A vs r) : ∀ es, AnyDenotes X r es s →
    s = .other ∨ ∃ y ∈ viewedAll es, Reaches A y s
  | [], h => by
    simp only [AnyDenotes] at h
  | e :: es, h => by
    simp only [AnyDenotes] at h
    simp only [viewedAll, List.mem_append]
    rcases h with h | h
    · rcases hr.denotes e h with h | ⟨y, hy, h⟩
      · exact .inl h
      · exact .inr ⟨y, .inl hy, h⟩
    · rcases hr.anyDenotes es h with h | ⟨y, hy, h⟩
      · exact .inl h
      · exact .inr ⟨y, .inr hy, h⟩

end

/-- A name that is given a value refers to what the value is a view of. -/
theorem Inv.given (hr : Inv A vs r) {x : String} {e : Views.Expr} (hx : (x, e) ∈ A)
    (h : Denotes X r e s) : s = .other ∨ Aliases A x s := by
  rcases hr.denotes e h with h | ⟨y, hy, h⟩
  · exact .inl h
  · exact .inr (h.given hx hy)

/-- A chain of slices and indices is a view of what its leftmost name is. -/
theorem denotes_leftmost {x : String} {b : Views.Expr} (hb : b.leftmost = some x)
    (h : Denotes X r b s) : s = .other ∨ Denotes X r (.name x) s := by
  match b with
  | .name y =>
    cases hb
    exact .inr h
  | .slice b =>
    rw [Denotes] at h
    exact denotes_leftmost (b := b) hb h
  | .index k b =>
    rw [Denotes] at h
    split at h
    · exact denotes_leftmost (b := b) hb h
    · exact .inl h
termination_by structural b

end Values

/-! ### Notes -/

/-- Within its bounds the stack holds the enclosing kernels. -/
theorem exists_of_colIsDeclaredWrite {X : Context} {c : String} : ∀ {ks : List Kernel},
    ks.length ≤ stackSize → X.colIsDeclaredWrite c ks = true → ∃ k ∈ ks, c ∈ k.writes
  | k :: ks, hlen, h => by
    have hdepth : ks.length < stackSize := hlen
    rw [Context.colIsDeclaredWrite, if_pos hdepth, Bool.or_eq_true] at h
    rcases h with h | h
    · exact ⟨k, List.mem_cons_self, by simpa using h⟩
    · obtain ⟨k', hk', hc⟩ := exists_of_colIsDeclaredWrite (Nat.le_of_succ_le hlen) h
      exact ⟨k', List.mem_cons_of_mem k hk', hc⟩

/-- No error, and every column collected is listed. -/
structure Clean (X : Context) (ks : List Kernel) (ns : List Note) : Prop where
  errors : ∀ d, Note.error d ∉ ns
  records : ∀ c, Note.record c ∈ ns → Settled X c ks

section Notes

variable {X : Context} {ks : List Kernel} {ns ns' : List Note} {k : Kernel} {vs : List Decl}

theorem Clean.left (h : Clean X ks (ns ++ ns')) : Clean X ks ns :=
  ⟨fun d hd => h.errors d (List.mem_append_left _ hd),
    fun c hc => h.records c (List.mem_append_left _ hc)⟩

theorem Clean.right (h : Clean X ks (ns ++ ns')) : Clean X ks ns' :=
  ⟨fun d hd => h.errors d (List.mem_append_right _ hd),
    fun c hc => h.records c (List.mem_append_right _ hc)⟩

/-- A body is clean if its kernel is. -/
theorem Clean.body (h : Clean X ks (X.kernelWritesEnd k ks ns)) : Clean X (k :: ks) ns := by
  refine ⟨fun d hd => ?_, fun c hc => ?_⟩
  · exact h.right.errors d (List.mem_filter.mpr ⟨hd, rfl⟩)
  · by_contra hset
    have hany : ns.any (X.unlisted k ks) = true := by
      refine List.any_eq_true.mpr ⟨.record c, hc, ?_⟩
      simpa [Context.unlisted, Settled] using hset
    have hleft := h.left
    rw [if_pos hany] at hleft
    exact hleft.errors _ (List.mem_singleton.mpr rfl)

/-- A target that is not rejected. -/
theorem Clean.passes {x : String} {d : Decl} (h : Clean X ks (checkRoot X ks vs x))
    (hd : find x vs = some d) (hx : d.name = x) : Passes X ks d := by
  subst hx
  unfold checkRoot at h
  rw [hd] at h
  refine ⟨?_, fun hb => ?_, fun hp => ?_⟩
  · by_contra hc
    have hleft := h.left.right
    rw [if_pos (Bool.not_eq_false _ ▸ hc)] at hleft
    exact hleft.errors _ (List.mem_singleton.mpr rfl)
  · by_contra hw
    have hright := h.right
    have hcond : (d.borrowed && !X.colIsDeclaredWrite d.name ks) = true := by
      rw [hb, Bool.eq_false_iff.mpr hw]
      rfl
    simp only [hcond, if_true] at hright
    exact hright.errors _ (List.mem_singleton.mpr rfl)
  · cases ks with
    | nil => trivial
    | cons k ks =>
      refine h.left.left.records d.name ?_
      simp [hp]

theorem Clean.root_not_const {x : String} (h : Clean X ks (checkRoot X ks vs x)) :
    X.constArray x = false := by
  by_contra hc
  have hleft := h.left.right
  rw [if_pos (Bool.not_eq_false _ ▸ hc)] at hleft
  exact hleft.errors _ (List.mem_singleton.mpr rfl)

end Notes

/-! ### Steps -/

section Steps

variable {X : Context} (R : Rule X) (A : List (String × Views.Expr))

def GoodEvent : Event → Prop
  | .wrote ks s => R.good ks s
  | .again => True

/-- From the variables `vs` every path has good writes only, and ends with the variables `vs₁`. -/
def Sound (vs vs₁ : List Decl) (p : Path (List Var) Event) : Prop :=
  Triple (fun _ => True) (GoodEvent R) (Inv A vs) p (Inv A vs₁) (Under A vs)

end Steps

section Steps

variable {X : Context} {R : Rule X} {A : List (String × Views.Expr)} {ks : List Kernel}
  {vs vs₁ vs₂ : List Decl} {p q : Path (List Var) Event}

namespace Sound

theorem skip (vs : List Decl) : Sound R A vs vs .skip := Triple.skip fun _ h => h

theorem seq (hp : Sound R A vs vs₁ p) (hq : Sound R A vs₁ vs₂ q) (h : vs <:+ vs₁) :
    Sound R A vs vs₂ (.seq p q) := by
  obtain ⟨ext, rfl⟩ := h
  exact Triple.seq hp (Triple.conseq hq (fun _ h => h) (fun _ h => h) fun _ h => h.of_append)

theorem choice (hp : Sound R A vs vs₁ p) (hq : Sound R A vs vs₁ q) :
    Sound R A vs vs₁ (.choice p q) :=
  Triple.choice hp hq

/-- A scope of its own. -/
theorem within (hp : Sound R A vs vs₁ p) (h : vs <:+ vs₁) :
    Sound R A vs vs (.within cutBack p) := by
  obtain ⟨ext, rfl⟩ := h
  refine Triple.within hp ?_ ?_
  · intro s s₁ hs h₁
    exact cutBack_inv hs h₁.under_append
  · intro s s₁ hs h₁
    exact (cutBack_inv hs h₁).under

/-- Every round begins with the same variables. -/
theorem loop {k : LoopForm} {body incr : Path (List Var) Event} (hbody : Sound R A vs vs₁ body)
    (hincr : Sound R A vs vs incr) (h : vs <:+ vs₁) :
    Sound R A vs vs (.Loop k cutBack (fun _ _ => .again) (fun _ => .skip) body incr) := by
  obtain ⟨ext, rfl⟩ := h
  refine Triple.loopInv (fun _ _ => trivial) (skip vs) (skip vs) hbody hincr ?_
    (fun _ h => h) (fun _ h => h) (fun _ h => h.under)
  rintro s s' hs (h | h)
  · exact cutBack_inv hs h.under_append
  · exact cutBack_inv hs h

/-- An evaluation gives some view the value may be. -/
theorem taking {e : Views.Expr} {f : Storage → Path (List Var) Event}
    (h : ∀ s, Triple (fun _ => True) (GoodEvent R) (fun r => Inv A vs r ∧ Denotes X r e s) (f s)
      (Inv A vs₁) (Under A vs)) : Sound R A vs vs₁ (taking X e f) := by
  refine Triple.get (Q := fun s r => Inv A vs r ∧ Denotes X r e s) ?_ h
  rintro r s t hr ⟨hs, rfl⟩ -
  exact ⟨fun _ he => absurd he List.not_mem_nil, hr, hs⟩

end Sound

/-- A write that has to be good. -/
theorem emit_sound {f : List Var → Storage} {P : List Var → Prop}
    (hgood : ∀ r, P r → R.good ks (f r)) (hP : ∀ r, P r → Inv A vs r) :
    Triple (fun _ => True) (GoodEvent R) P (.emit fun r => .wrote ks (f r)) (Inv A vs)
      (Under A vs) :=
  Triple.emit hgood fun r hr _ => hP r hr

theorem declare_sound (mk : List Decl → Decl) {s : Storage} {P : List Var → Prop}
    (hP : ∀ r, P r → Inv A vs r ∧ (s = .other ∨ Aliases A (mk vs).name s)) :
    Triple (fun _ => True) (GoodEvent R) P (declare mk s) (Inv A (mk vs :: vs)) (Under A vs) := by
  refine Triple.act fun r hr _ => ⟨fun _ he => absurd he List.not_mem_nil, ?_⟩
  obtain ⟨hr, hs⟩ := hP r hr
  dsimp only
  rw [hr.decls]
  refine hr.cons (v := ⟨mk vs, if (mk vs).kind.byref then s else .other⟩) ?_
  show (if _ then _ else _) = Storage.other ∨ _
  split
  · rcases hs with hs | hs
    · exact .inl hs
    · exact .inr (.inr (by simpa using hs))
  · exact .inl rfl

theorem bindVar_sound (vs : List Decl) {x : String} {k : TyKind} {typed : Bool}
    {value : Option Views.Expr} (hA : ∀ e, value = some e → (x, e) ∈ A) :
    Sound R A vs (Decl.local x k (taint vs x k typed value) :: vs) (bindVar X x k typed value) := by
  cases value with
  | none =>
    exact declare_sound (fun vs => Decl.local x k (taint vs x k typed none))
      fun r hr => ⟨hr, .inl rfl⟩
  | some e =>
    refine Sound.taking fun s => ?_
    exact declare_sound (fun vs => Decl.local x k (taint vs x k typed (some e)))
      fun r hr => ⟨hr.1, hr.1.given (hA e rfl) hr.2⟩

/-- The write goes by the name the storage was declared with, and the walk lets it pass, or by
another name, and is good. -/
theorem good_of_root {x : String} {r : List Var} {v : Var} (hlen : ks.length ≤ stackSize)
    (hfan : ∀ k ∈ ks, R.fan k) (hc : Clean X ks (checkRoot X ks vs x))
    (hs : ∀ s, Aliases A x s → R.good ks s) (hr : Inv A vs r) (hv : findVar x r = some v) :
    R.good ks v.storage := by
  obtain ⟨hfind, hname, hsound⟩ := hr.find hv
  rcases hsound with h | h | h
  · rw [h]
    exact R.other ks
  · rw [h]
    exact R.direct ks v.decl hlen hfan (hc.passes hfind hname)
  · exact hs _ (hname ▸ h)

theorem assignVar_sound {x : String} {value : Views.Expr} (hlen : ks.length ≤ stackSize)
    (hfan : ∀ k ∈ ks, R.fan k) (hc : Clean X ks (checkRoot X ks vs x))
    (hs : ∀ s, Aliases A x s → R.good ks s) (hA : (x, value) ∈ A) :
    Sound R A vs vs (taking X value (assignVar ks x)) := by
  refine Sound.taking fun s => Triple.act fun r hr _ => ?_
  obtain ⟨hr, hden⟩ := hr
  cases hv : findVar x r with
  | none => exact ⟨fun _ he => absurd he List.not_mem_nil, hr⟩
  | some v =>
    dsimp only
    split
    · exact ⟨fun _ he => absurd he List.not_mem_nil, hr.setStorage (hr.given hA hden)⟩
    · refine ⟨fun e he => ?_, hr⟩
      rw [List.mem_singleton.mp he]
      exact good_of_root hlen hfan hc hs hr hv

theorem assign_sound {t : Target} {value : Views.Expr} (hlen : ks.length ≤ stackSize)
    (hfan : ∀ k ∈ ks, R.fan k) (hc : Clean X ks (t.leftmost.elim [] (checkRoot X ks vs)))
    (hs : SparesTarget R A ks t) (hA : ∀ x, t = .name x → (x, value) ∈ A) :
    Sound R A vs vs (assign X ks value t) := by
  cases t with
  | name x => exact assignVar_sound hlen hfan hc hs (hA x rfl)
  | elem b =>
    refine Sound.taking fun s => emit_sound (fun r hr => ?_) fun r hr => hr.1
    obtain ⟨hr, hden⟩ := hr
    unfold SparesTarget at hs
    cases hb : b.leftmost with
    | none =>
      simp only [hb] at hs
      rcases hr.denotes b hden with rfl | ⟨y, hy, hreach⟩
      · exact R.other ks
      · exact hs y hy s hreach
    | some x =>
      simp only [hb] at hs
      simp only [Target.leftmost, hb, Option.elim_some] at hc
      rcases denotes_leftmost hb hden with rfl | hden
      · exact R.other ks
      · rcases denotes_name hden with ⟨hconst, -⟩ | rfl | ⟨v, hv, rfl⟩
        · exact absurd hconst (by simp [hc.root_not_const])
        · exact R.other ks
        · exact good_of_root hlen hfan hc hs hr hv
  | field root field indexed =>
    refine emit_sound (fun r hr => ?_) fun r hr => hr
    unfold fieldStorage
    cases hv : findVar root r with
    | none => exact hs.2
    | some v =>
      dsimp only
      split
      · exact hs.2
      · exact good_of_root hlen hfan hc hs.1 hr hv

theorem passArgs_sound (vs : List Decl) {args : List Arg}
    (hs : ∀ a ∈ args, a.inOut = true → ∀ y ∈ viewed a.value, ∀ s, Reaches A y s → R.good ks s) :
    Sound R A vs vs (passArgs X ks args) := by
  induction args with
  | nil => exact .skip vs
  | cons a args ih =>
    refine .seq ?_ (ih fun a ha => hs a (List.mem_cons_of_mem _ ha)) (List.suffix_refl vs)
    split
    · next hio =>
      refine Sound.taking fun s => emit_sound (fun r hr => ?_) fun r hr => hr.1
      rcases hr.1.denotes _ hr.2 with rfl | ⟨y, hy, hreach⟩
      · exact R.other ks
      · exact hs a List.mem_cons_self hio y hy s hreach
    · exact .skip vs

theorem outDecls_cons (o : Out) (os : List Out) : outDecls (o :: os) =
    outDecls os ++ if o.isNew then [Decl.local o.name o.kind false] else [] := by
  unfold outDecls
  cases ho : o.isNew <;> simp [ho]

theorem fillOuts_sound (vs : List Decl) {args : List Arg} {outs : List Out}
    (hs : ∀ o ∈ outs, o.isNew = false → ∀ s, Reaches A o.name s → R.good ks s)
    (hA : ∀ o ∈ outs, (o.name, .call o.kind (args.map Arg.value)) ∈ A) :
    Sound R A vs (outDecls outs ++ vs) (fillOuts X ks args outs) := by
  induction outs generalizing vs with
  | nil => exact .skip vs
  | cons o os ih =>
    have ihs (vs : List Decl) := ih vs (fun o ho => hs o (List.mem_cons_of_mem _ ho))
      fun o ho => hA o (List.mem_cons_of_mem _ ho)
    rw [outDecls_cons, List.append_assoc]
    refine .seq ?_ (ihs _) (List.suffix_append _ vs)
    split
    · refine Sound.taking fun s => ?_
      exact declare_sound (fun _ => Decl.local o.name o.kind false)
        fun r hr => ⟨hr.1, hr.1.given (hA o List.mem_cons_self) hr.2⟩
    · next hnew =>
      refine Triple.act fun r hr _ => ⟨fun e he => ?_, hr⟩
      obtain ⟨v, hv, rfl⟩ := Option.map_eq_some_iff.mp (Option.mem_toList.mp he)
      obtain ⟨-, hname, hsound⟩ := hr.find hv
      rcases hsound.reaches with h | h
      · show R.good ks v.storage
        rw [h]
        exact R.other ks
      · exact hs o List.mem_cons_self (Bool.eq_false_iff.mpr hnew) _ (hname ▸ h)

theorem enter_sound (vs ds : List Decl) : Sound R A vs (ds ++ vs) (enter ds) := by
  refine Triple.act fun r hr _ => ⟨fun _ he => absurd he List.not_mem_nil, ?_, fun v hv => ?_⟩
  · show (List.map _ _ ++ r).map Var.decl = _
    rw [List.map_append, List.map_map, hr.decls]
    exact congrArg (· ++ vs) (List.map_id ds)
  · rcases List.mem_append.mp hv with hv | hv
    · obtain ⟨d, -, rfl⟩ := List.mem_map.mp hv
      exact .inr (.inl rfl)
    · exact hr.sound v hv

end Steps

/-! ### Whole bodies -/

theorem declared_suffix (vs : List Decl) (ss : List Stmt) : vs <:+ declared vs ss := by
  induction ss generalizing vs with
  | nil => exact List.suffix_refl vs
  | cons s ss ih => exact (List.suffix_append _ vs).trans (ih _)

/-- An increment that declares nothing leaves the variables as they were. -/
theorem declared_eq {ss : List Stmt} (h : declares ss = false) (vs : List Decl) :
    declared vs ss = vs := by
  induction ss with
  | nil => rfl
  | cons s ss ih =>
    rw [declares, List.any_cons, Bool.or_eq_false_iff] at h
    have hs : bound vs s = [] := by
      cases s with
      | bind x k typed value => exact absurd h.1 Bool.noConfusion
      | call args outs => exact absurd h.1 Bool.noConfusion
      | _ => rfl
    rw [declared, hs]
    exact ih h.2

section Bodies

variable {X : Context} {R : Rule X} {A : List (String × Views.Expr)}

mutual

theorem exec_sound {ks : List Kernel} {inMap : Bool} {vs : List Decl} (s : Stmt)
    (hlen : ks.length ≤ stackSize) (hfan : ∀ k ∈ ks, R.fan k)
    (hc : Clean X ks (analyzeStmt X ks inMap vs s)) (hs : Spares R A ks s)
    (hA : aliases s ⊆ A) : Sound R A vs (bound vs s ++ vs) (Exec X ks s) := by
  cases s with
  | bind x k typed value =>
    refine bindVar_sound vs fun e he => hA ?_
    subst he
    exact List.mem_singleton.mpr rfl
  | assign t value =>
    rw [analyzeStmt] at hc
    refine assign_sound hlen hfan hc.right hs fun x hx => hA ?_
    subst hx
    exact List.mem_singleton.mpr rfl
  | call args outs =>
    refine .seq (passArgs_sound vs hs.1) (fillOuts_sound vs hs.2 fun o ho => hA ?_)
      (List.suffix_refl vs)
    exact List.mem_map.mpr ⟨o, ho, rfl⟩
  | other => exact .skip vs
  | fan k body =>
    rw [analyzeStmt] at hc
    obtain ⟨hdepth, hk, hs⟩ := hs
    have hfan' : ∀ k' ∈ k :: ks, R.fan k' := List.forall_mem_cons.mpr ⟨hk, hfan⟩
    have hlen' : (k :: ks).length ≤ stackSize := hdepth
    have hbody := execAll_sound body hlen' hfan' hc.body hs hA
    exact .loop (.seq (enter_sound vs k.decls) hbody (List.suffix_append _ vs)) (.skip vs)
      ((List.suffix_append _ vs).trans (declared_suffix _ body))
  | eachField x body =>
    rw [analyzeStmt] at hc
    have hbody := execAll_sound body hlen hfan hc hs hA
    exact .loop (.seq (enter_sound vs [_]) hbody (List.suffix_append [_] vs)) (.skip vs)
      ((List.suffix_append [_] vs).trans (declared_suffix _ body))
  | forC init tested incr body =>
    rw [analyzeStmt] at hc
    obtain ⟨hincr, hs₁, hs₂, hs₃⟩ := hs
    obtain ⟨hA, hA₃⟩ := List.append_subset.mp hA
    obtain ⟨hA₁, hA₂⟩ := List.append_subset.mp hA
    -- the walk has met the increment before the body, and it declared nothing
    rw [declared_eq hincr] at hc
    have hi := execAll_sound incr hlen hfan hc.left.right hs₂ hA₂
    rw [declared_eq hincr] at hi
    have hb := execAll_sound body hlen hfan hc.right hs₃ hA₃
    have hinit := declared_suffix vs init
    exact .within (.seq (execAll_sound init hlen hfan hc.left.left hs₁ hA₁)
      (.loop hb hi (declared_suffix _ body)) hinit) hinit
  | forever body =>
    rw [analyzeStmt] at hc
    exact .loop (execAll_sound body hlen hfan hc hs hA) (.skip vs) (declared_suffix vs body)
  | ite thn els =>
    rw [analyzeStmt] at hc
    obtain ⟨hA₁, hA₂⟩ := List.append_subset.mp hA
    exact .choice (.within (execAll_sound thn hlen hfan hc.left hs.1 hA₁) (declared_suffix vs thn))
      (.within (execAll_sound els hlen hfan hc.right hs.2 hA₂) (declared_suffix vs els))
  | block body =>
    rw [analyzeStmt] at hc
    exact .within (execAll_sound body hlen hfan hc hs hA) (declared_suffix vs body)
  | matchOn arms =>
    rw [analyzeStmt] at hc
    exact execArm_sound arms hlen hfan hc hs hA
  | ret => exact Triple.leave fun _ _ => trivial
  | brk => exact Triple.leave fun _ hr => hr.under
  | cont => exact Triple.leave fun _ hr => hr.under

theorem execAll_sound {ks : List Kernel} {inMap : Bool} {vs : List Decl} (ss : List Stmt)
    (hlen : ks.length ≤ stackSize) (hfan : ∀ k ∈ ks, R.fan k)
    (hc : Clean X ks (analyzeStmts X ks inMap vs ss)) (hs : SparesAll R A ks ss)
    (hA : aliasesAll ss ⊆ A) : Sound R A vs (declared vs ss) (ExecAll X ks ss) := by
  cases ss with
  | nil => exact .skip vs
  | cons s ss =>
    rw [analyzeStmts] at hc
    obtain ⟨hA₁, hA₂⟩ := List.append_subset.mp hA
    have hc₁ : Clean X ks (analyzeStmt X ks inMap vs s) := by
      have hleft := hc.left
      split at hleft
      · exact absurd (List.mem_singleton.mpr rfl) (hleft.errors _)
      · exact hleft
    exact .seq (exec_sound s hlen hfan hc₁ hs.1 hA₁) (execAll_sound ss hlen hfan hc.right hs.2 hA₂)
      (List.suffix_append _ vs)

theorem execArm_sound {ks : List Kernel} {inMap : Bool} {vs : List Decl}
    (arms : List (List Stmt)) (hlen : ks.length ≤ stackSize) (hfan : ∀ k ∈ ks, R.fan k)
    (hc : Clean X ks (analyzeArms X ks inMap vs arms)) (hs : SparesArms R A ks arms)
    (hA : aliasesArms arms ⊆ A) : Sound R A vs vs (ExecArm X ks arms) := by
  cases arms with
  | nil => exact .skip vs
  | cons arm arms =>
    rw [analyzeArms] at hc
    obtain ⟨hA₁, hA₂⟩ := List.append_subset.mp hA
    exact .choice (.within (execAll_sound arm hlen hfan hc.left hs.1 hA₁) (declared_suffix vs arm))
      (execArm_sound arms hlen hfan hc.right hs.2 hA₂)

end

end Bodies

end Arche.Semantic.Writes
