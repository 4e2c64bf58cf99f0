import Arche.Codegen.SliceArgs
import Arche.Lib.Nesting
import Mathlib.Logic.Function.Basic

/-!
# Array and slice variables

An array or slice variable is an entry of the compiler: the name of a pointer and the name or text
of a length. `a = move b` and `out = buf[lo:hi]` put other names into the entry. The entries change
as the code is emitted, in the order of the text, while the program goes through the text by its
jumps. So a line sees what the lines above it did, whether they ran or not.

A body is emitted as a text of lines with labels and branches. A run goes from line to line. What
the source says a variable is, is kept in `vals`, what the code computes, in `regs`.

1. `emit_piece`: the scopes of an emitted text are nested, and branches stay inside of them.
2. `record_eq`: an entry is the same where no line between has touched it.
3. `kept_next`, `kept_jump`: what a step keeps.
4. `denotes_of_run`: after every run whose jumps pass over no assignment of a variable that is
   visible where they land, the code sees what the source says.
5. `not_denotes`: an assignment in a branch that is not taken.
-/

namespace Arche.Codegen.ArrayRebind

open Arche.Lib SliceArgs

/-! ## Bodies -/

/-- The right side of an assignment. -/
inductive Src
  /-- `y`, `move y`, and the `copy` of a slice, which is passed on. -/
  | name (y : String)
  /-- `copy y` of an array of known size, to an object of its own. -/
  | copy (object : Nat) (y : String)
  /-- `y[lo:hi]`. -/
  | slice (y : String)
deriving DecidableEq, Repr

/-- The value of a declaration. -/
inductive Init
  /-- Storage of its own, or what the caller passed, and the array it is recorded as. -/
  | own (view info : View)
  | of (src : Src)
deriving DecidableEq, Repr

inductive Exit
  | brk
  | cont
  | ret
deriving DecidableEq, Repr

/-- The statements that have to do with arrays. A condition is the arrays it looks at, and `match`
is a block with a chain of `ite`. -/
inductive Stmt
  /-- `isOut`: an out-parameter whose `{ptr, len}` the caller gets. -/
  | decl (x : String) (isOut : Bool) (init : Init)
  | assign (x : String) (src : Src)
  | use (x : String)
  | ite (cond : List String) (thn els : List Stmt)
  | block (body : List Stmt)
  /-- `for cond { }`, or `for { }`. -/
  | loop (cond : Option (List String)) (body : List Stmt)
  /-- `for (init; cond; incr) { }`. -/
  | forLoop (init : List Stmt) (cond : Option (List String)) (incr body : List Stmt)
  /-- The body once for each live row. -/
  | fan (body : List Stmt)
  | leave (how : Exit)

/-! ## The emitted text -/

/-- The scopes around a line, from the inside out: a number, and whether `push_value_scope` is
called for it. -/
abbrev Scope := List (Nat × Bool)

structure Label where
  id : Nat
  scope : Scope
deriving DecidableEq, Repr

inductive Line
  | decl (x : String) (isOut : Bool) (init : Init)
  | assign (x : String) (src : Src)
  | use (x : String)
  | label (l : Label)
  /-- `br`: to one of the labels. -/
  | branch (targets : List Label)
  | ret
deriving DecidableEq, Repr

structure Row where
  scope : Scope
  line : Line
deriving DecidableEq, Repr

/-- Where a statement is emitted: its scope, `loop_exit_labels` and `loop_cont_labels`. -/
structure Frame where
  scope : Scope := []
  exit : Option Label := none
  cont : Option Label := none

def Frame.inside (f : Frame) (id : Nat) (pushes : Bool) : Frame :=
  { f with scope := (id, pushes) :: f.scope }

def Frame.label (f : Frame) (id : Nat) : Label := ⟨id, f.scope⟩

def Frame.row (f : Frame) (line : Line) : Row := ⟨f.scope, line⟩

def Frame.uses (f : Frame) (xs : List String) : List Row := xs.map fun x => f.row (.use x)

/-- A test: to `yes`, or to `no` if there is a condition. -/
def Frame.test (f : Frame) (cond : Option (List String)) (yes no : Label) : List Row :=
  match cond with
  | some xs => f.uses xs ++ [f.row (.branch [yes, no])]
  | none => [f.row (.branch [yes])]

def Frame.jump (f : Frame) (target : Option Label) : List Row :=
  match target with
  | some l => [f.row (.branch [l])]
  | none => []

mutual

/-- `codegen_statement`. The numbers from `n` on are free, and those that are left are returned. -/
def Stmt.emit (f : Frame) (n : Nat) : Stmt → List Row × Nat
  | .decl x isOut init => ([f.row (.decl x isOut init)], n)
  | .assign x src => ([f.row (.assign x src)], n)
  | .use x => ([f.row (.use x)], n)
  | .ite cond thn els =>
    let t := emitAll (f.inside (n + 3) false) (n + 4) thn
    let e := emitAll (f.inside t.2 false) (t.2 + 1) els
    let no := if els.isEmpty then f.label (n + 2) else f.label (n + 1)
    let other :=
      if els.isEmpty then []
      else [f.row (.label (f.label (n + 1)))] ++ e.1 ++ [f.row (.branch [f.label (n + 2)])]
    (f.test (some cond) (f.label n) no ++ [f.row (.label (f.label n))] ++ t.1 ++
      [f.row (.branch [f.label (n + 2)])] ++ other ++ [f.row (.label (f.label (n + 2)))], e.2)
  -- no value scope is pushed
  | .block body => emitAll (f.inside n false) (n + 1) body
  | .loop cond body =>
    let looped : Frame := { f with exit := f.label (n + 2), cont := f.label n }
    let b := emitAll (looped.inside (n + 3) true) (n + 4) body
    ([f.row (.branch [f.label n]), f.row (.label (f.label n))] ++
      f.test cond (f.label (n + 1)) (f.label (n + 2)) ++ [f.row (.label (f.label (n + 1)))] ++
      b.1 ++ [f.row (.branch [f.label n]), f.row (.label (f.label (n + 2)))], b.2)
  | .forLoop init cond incr body =>
    let g := f.inside n true
    let i := emitAll g (n + 5) init
    let looped : Frame := { g with exit := g.label (n + 3), cont := g.label (n + 4) }
    let b := emitAll (looped.inside i.2 false) (i.2 + 1) body
    let r := emitAll g b.2 incr
    (i.1 ++ [g.row (.branch [g.label (n + 1)]), g.row (.label (g.label (n + 1)))] ++
      g.test cond (g.label (n + 2)) (g.label (n + 3)) ++ [g.row (.label (g.label (n + 2)))] ++
      b.1 ++ [g.row (.branch [g.label (n + 4)]), g.row (.label (g.label (n + 4)))] ++ r.1 ++
      [g.row (.branch [g.label (n + 1)]), g.row (.label (g.label (n + 3)))], r.2)
  -- a break is meant for a loop around the fan
  | .fan body =>
    let b := emitAll ({ f with cont := f.label (n + 2) }.inside (n + 5) true) (n + 6) body
    ([f.row (.branch [f.label n]), f.row (.label (f.label n)),
        f.row (.branch [f.label (n + 1), f.label (n + 3)]), f.row (.label (f.label (n + 1))),
        f.row (.branch [f.label (n + 2), f.label (n + 4)]), f.row (.label (f.label (n + 4)))] ++
      b.1 ++ [f.row (.branch [f.label (n + 2)]), f.row (.label (f.label (n + 2))),
        f.row (.branch [f.label n]), f.row (.label (f.label (n + 3)))], b.2)
  | .leave .brk => (f.jump f.exit, n)
  | .leave .cont => (f.jump f.cont, n)
  | .leave .ret => ([f.row .ret], n)

def emitAll (f : Frame) (n : Nat) : List Stmt → List Row × Nat
  | [] => ([], n)
  | s :: ss =>
    let first := s.emit f n
    let rest := emitAll f first.2 ss
    (first.1 ++ rest.1, rest.2)

end

def textOf (body : List Stmt) : List Row := (emitAll {} 0 body).1

/-! ## Names -/

abbrev Text := List Row

section

variable (text : Text)

def lineAt (k : Nat) : Option Line := text[k]?.map Row.line

def scopes : List Scope := text.map Row.scope

/-- The scopes the compiler keeps values in. -/
def valueScopes : List Scope := text.map fun r => r.scope.filter Prod.snd

def declares (d : Nat) (x : String) : Bool :=
  match lineAt text d with
  | some (.decl y _ _) => y = x
  | _ => false

/-- The newest declaration of a name whose scope is open. -/
def lastDecl (ss : List Scope) (pc : Nat) (x : String) : Option Nat :=
  (List.range pc).reverse.find? fun d => declares text d x && decide (Open ss d pc)

/-- The variable a name stands for, by the line that declares it. -/
def resolve (pc : Nat) (x : String) : Option Nat := lastDecl text (scopes text) pc x

/-- `find_value`: branches and blocks push no scope. -/
def found (pc : Nat) (x : String) : Option Nat := lastDecl text (valueScopes text) pc x

/-! ## Entries -/

/-- An entry: the lines that computed its pointer and its length. -/
structure Record where
  ptr : Nat
  len : Nat
deriving DecidableEq, Repr

def Src.source : Src → String
  | .name y | .copy _ y | .slice y => y

/-- What a line `k` puts into an entry. `entry` is what the name on the right has. -/
def Src.record (k : Nat) (entry : String → Option Record) : Src → Option Record
  | .name y => entry y
  | .copy _ y => (entry y).map fun r => { r with ptr := k }
  | .slice _ => some ⟨k, k⟩

def Init.record (k : Nat) (entry : String → Option Record) : Init → Option Record
  | .own _ _ => some ⟨k, k⟩
  | .of src => src.record k entry

/-- The variable is an out-parameter (`out_aggr_ptr`). -/
def isOutParam (d : Nat) : Bool :=
  match lineAt text d with
  | some (.decl _ isOut _) => isOut
  | _ => false

/-- What an assignment makes of the entry `old`. An out-parameter takes the operand of a `copy` as
it is. A slice goes only into an out-parameter, elsewhere nothing is emitted for it. -/
def Src.put (k : Nat) (entry : String → Option Record) (isOut : Bool) (old : Option Record) :
    Src → Option Record
  | .name y => entry y
  | .copy o y => if isOut then entry y else (Src.copy o y).record k entry
  | .slice y => if isOut then (Src.slice y).record k entry else old

/-- The entry of the variable `d` after the first `pc` lines have been emitted. -/
def record : Nat → Nat → Option Record
  | 0, _ => none
  | k + 1, d =>
    match lineAt text k with
    | some (.decl _ _ init) =>
      if d = k then init.record k fun y => (found text k y).bind (record k) else record k d
    | some (.assign x src) =>
      if found text k x = some d then
        src.put k (fun y => (found text k y).bind (record k)) (isOutParam text d) (record k d)
      else record k d
    | _ => record k d

/-! ## Runs -/

/-- `vals` is what the source says of the variable a line declares, `regs` what the code computed
at a line. -/
structure State where
  pc : Nat := 0
  vals : Nat → Option View := fun _ => none
  regs : Nat → Option View := fun _ => none

def Record.view (regs : Nat → Option View) (r : Record) : Option View := do
  let p ← regs r.ptr
  let l ← regs r.len
  some ⟨p.ptr, l.len⟩

/-- The array the source says a name stands for. -/
def sourceView (s : State) (x : String) : Option View := (resolve text s.pc x).bind s.vals

/-- The array the code takes a name for. -/
def codeView (s : State) (x : String) : Option View := do
  let d ← found text s.pc x
  let r ← record text s.pc d
  r.view s.regs

/-- The bounds of a slice are what they come to at run time. -/
def Src.eval (view : String → Option View) (lo hi : Int) : Src → Option View
  | .name y => view y
  | .copy o y => (view y).map fun v => { v with ptr := .elem o 0 }
  | .slice y => (view y).map fun v => ⟨v.ptr.add lo, hi - lo⟩

def Init.eval (view : String → Option View) (lo hi : Int) : Init → Option View
  | .own v _ => some v
  | .of src => src.eval view lo hi

def Init.computed (view : String → Option View) (lo hi : Int) : Init → Option View
  | .own _ info => some info
  | .of src => src.eval view lo hi

/-- A line is run, and the run goes on with the next one. -/
def State.exec (s : State) (lo hi : Int) : State :=
  match lineAt text s.pc with
  | some (.decl _ _ init) =>
    { pc := s.pc + 1
      vals := Function.update s.vals s.pc (init.eval (sourceView text s) lo hi)
      regs := Function.update s.regs s.pc (init.computed (codeView text s) lo hi) }
  | some (.assign x src) =>
    { pc := s.pc + 1
      vals :=
        match resolve text s.pc x with
        | some d => Function.update s.vals d (src.eval (sourceView text s) lo hi)
        | none => s.vals
      regs := Function.update s.regs s.pc (src.eval (codeView text s) lo hi) }
  | _ => { s with pc := s.pc + 1 }

inductive Move
  | next (lo hi : Int)
  | jump (target : Nat)
deriving DecidableEq, Repr

def Line.falls : Line → Bool
  | .branch _ | .ret => false
  | _ => true

/-- The run goes on with the next line, or at a label of a branch. -/
inductive Step : State → Move → State → Prop
  | next {s : State} {line : Line} {lo hi : Int} :
      lineAt text s.pc = some line → line.falls → Step s (.next lo hi) (s.exec text lo hi)
  | jump {s : State} {ls : List Label} {l : Label} {target : Nat} :
      lineAt text s.pc = some (.branch ls) → l ∈ ls → lineAt text target = some (.label l) →
      Step s (.jump target) { s with pc := target }

/-! ## The condition -/

/-- The compiler finds the variable a name stands for. -/
def Own (pc : Nat) (x : String) : Prop := ∃ d, resolve text pc x = some d ∧ found text pc x = some d

/-- Something is put into the entry. -/
def Src.Rebinds (isOut : Bool) : Src → Prop
  | .slice _ => isOut
  | .name _ | .copy _ _ => True

/-- The line declares the variable `d` or puts something into its entry. -/
def Touches (k d : Nat) : Prop :=
  match lineAt text k with
  | some (.decl _ _ _) => d = k
  | some (.assign x src) => found text k x = some d ∧ src.Rebinds (isOutParam text d)
  | _ => False

/-- The entry gets what the assignment says: slices go into out-parameters, copies elsewhere. -/
def Src.Follows (isOut : Bool) : Src → Prop
  | .name _ => True
  | .copy _ _ => isOut = false
  | .slice _ => isOut

/-- A line that is run finds its variables, records an array as what it is and follows an
assignment. A jump passes over no declaration or assignment of a variable that is visible where it
lands. -/
def Met (s : State) : Move → Prop
  | .next _ _ =>
    match lineAt text s.pc with
    | some (.decl _ _ (.own v info)) => info = v
    | some (.decl _ _ (.of src)) => Own text s.pc src.source
    | some (.assign x src) =>
      Own text s.pc src.source ∧
        ∃ d, resolve text s.pc x = some d ∧ found text s.pc x = some d ∧
          src.Follows (isOutParam text d)
    | _ => True
  | .jump target =>
    ∀ k, s.pc < k ∧ k < target ∨ target < k ∧ k < s.pc →
      ∀ d, Touches text k d → ¬Open (scopes text) d target

end

/-! ## Emitted texts -/

/-- A label stands in its scope, and a branch does not enter one. -/
def Row.Targeted (r : Row) : Prop :=
  match r.line with
  | .label l => l.scope = r.scope
  | .branch ls => ∀ l ∈ ls, l.scope <:+ r.scope
  | _ => True

/-- A piece of a text in the scope `base`, whose inner scopes have the numbers from `lo` on and
below `hi`. -/
structure Piece (base : Scope) (lo hi : Nat) (rows : List Row) : Prop where
  le : lo ≤ hi
  within : ∀ r ∈ rows, Within Prod.fst base lo hi r.scope
  nested : Nested (scopes rows)
  targeted : ∀ r ∈ rows, r.Targeted

section

variable {base : Scope} {lo mid hi n : Nat} {rows rows' : List Row} {f : Frame}

theorem Piece.nil : Piece base n n [] where
  le := Nat.le_refl n
  within := by simp
  nested := by
    intro i k j _ _ _
    exact List.nil_suffix
  targeted := by simp

theorem Piece.row {line : Line} (h : (f.row line).Targeted) : Piece f.scope n n [f.row line] where
  le := Nat.le_refl n
  within := by
    simp only [List.mem_singleton, forall_eq]
    exact within_base
  nested := nested_singleton f.scope
  targeted := by simpa using h

theorem Piece.mono {lo' hi' : Nat} (h : Piece base lo hi rows) (hlo : lo' ≤ lo)
    (hhi : hi ≤ hi') : Piece base lo' hi' rows where
  le := (hlo.trans h.le).trans hhi
  within r hr := (h.within r hr).mono hlo hhi
  nested := h.nested
  targeted := h.targeted

theorem Piece.append (h : Piece base lo mid rows) (h' : Piece base mid hi rows') :
    Piece base lo hi (rows ++ rows') where
  le := h.le.trans h'.le
  within r hr := by
    rcases List.mem_append.mp hr with hr | hr
    · exact (h.within r hr).mono (Nat.le_refl _) h'.le
    · exact (h'.within r hr).mono h.le (Nat.le_refl _)
  nested := by
    have happend : scopes (rows ++ rows') = scopes rows ++ scopes rows' := List.map_append
    rw [happend]
    have hwithin : ∀ s ∈ scopes rows, Within Prod.fst base lo mid s :=
      List.forall_mem_map.mpr h.within
    have hwithin' : ∀ s ∈ scopes rows', Within Prod.fst base mid hi s :=
      List.forall_mem_map.mpr h'.within
    exact h.nested.append h'.nested hwithin hwithin'
  targeted r hr := (List.mem_append.mp hr).elim (h.targeted r) (h'.targeted r)

/-- A piece in an inner scope. -/
theorem Piece.inside {id : Nat} {pushes : Bool}
    (h : Piece (f.inside id pushes).scope lo hi rows) (hid : id < lo) :
    Piece f.scope id hi rows where
  le := (Nat.le_of_lt hid).trans h.le
  within r hr := (h.within r hr).of_cons hid h.le
  nested := h.nested
  targeted := h.targeted

/-- `break` and `continue` stay inside of the frame. -/
def Frame.Leaves (f : Frame) : Prop :=
  (∀ l ∈ f.exit, l.scope <:+ f.scope) ∧ ∀ l ∈ f.cont, l.scope <:+ f.scope

theorem Frame.Leaves.inside (h : f.Leaves) (id : Nat) (pushes : Bool) :
    (f.inside id pushes).Leaves :=
  ⟨fun l hl => (h.1 l hl).trans (List.suffix_cons _ _),
    fun l hl => (h.2 l hl).trans (List.suffix_cons _ _)⟩

theorem Piece.label {id : Nat} : Piece f.scope n n [f.row (.label (f.label id))] :=
  Piece.row rfl

theorem Piece.branch {ls : List Label} (h : ∀ l ∈ ls, l.scope <:+ f.scope) :
    Piece f.scope n n [f.row (.branch ls)] :=
  Piece.row h

theorem Piece.goto {id : Nat} : Piece f.scope n n [f.row (.branch [f.label id])] :=
  Piece.branch fun l hl => by rw [List.mem_singleton.mp hl]; exact List.suffix_rfl

theorem Piece.uses (xs : List String) : Piece f.scope n n (f.uses xs) := by
  induction xs with
  | nil => exact Piece.nil
  | cons x xs ih => exact (Piece.row trivial : Piece f.scope n n [f.row (.use x)]).append ih

theorem Piece.test {cond : Option (List String)} {yes no : Label}
    (hyes : yes.scope <:+ f.scope) (hno : no.scope <:+ f.scope) :
    Piece f.scope n n (f.test cond yes no) := by
  cases cond with
  | none => exact Piece.branch fun l hl => by rwa [List.mem_singleton.mp hl]
  | some xs =>
    refine (Piece.uses xs).append (Piece.branch fun l hl => ?_)
    rcases List.mem_pair.mp hl with rfl | rfl
    · exact hyes
    · exact hno

theorem Piece.jump {target : Option Label} (h : ∀ l ∈ target, l.scope <:+ f.scope) :
    Piece f.scope n n (f.jump target) := by
  cases target with
  | none => exact Piece.nil
  | some l => exact Piece.branch fun m hm => by rw [List.mem_singleton.mp hm]; exact h l rfl

mutual

theorem Stmt.emit_piece (s : Stmt) (f : Frame) (n : Nat) (hf : f.Leaves) :
    Piece f.scope n (s.emit f n).2 (s.emit f n).1 := by
  have hlabel {g : Frame} {id : Nat} : (g.label id).scope <:+ g.scope := List.suffix_rfl
  cases s with
  | decl x isOut init => exact Piece.row trivial
  | assign x src => exact Piece.row trivial
  | use x => exact Piece.row trivial
  | ite cond thn els =>
    have ht := emitAll_piece thn (f.inside (n + 3) false) (n + 4) (hf.inside _ _)
    have hthn := (ht.inside (Nat.lt_succ_self _)).mono (Nat.le_add_right n 3) (Nat.le_refl _)
    generalize ht' : emitAll (f.inside (n + 3) false) (n + 4) thn = t at hthn
    have he := emitAll_piece els (f.inside t.2 false) (t.2 + 1) (hf.inside _ _)
    have hels := he.inside (Nat.lt_succ_self _)
    unfold Stmt.emit
    simp only [ht']
    refine ((((Piece.test hlabel ?_).append Piece.label).append hthn).append Piece.goto).append ?_
      |>.append Piece.label
    · split <;> exact hlabel
    · split
      · exact Piece.nil.mono (Nat.le_refl _) hels.le
      · exact (Piece.label.append hels).append Piece.goto
  | block body =>
    have hb := emitAll_piece body (f.inside n false) (n + 1) (hf.inside _ _)
    exact hb.inside (Nat.lt_succ_self _)
  | loop cond body =>
    have hlooped : (Frame.mk f.scope (f.label (n + 2)) (f.label n)).Leaves := by
      constructor <;> exact fun l hl => by cases hl; exact hlabel
    have hb := emitAll_piece body _ (n + 4) (hlooped.inside (n + 3) true)
    have hbody := (hb.inside (Nat.lt_succ_self _)).mono (Nat.le_add_right n 3) (Nat.le_refl _)
    exact ((((Piece.goto.append Piece.label).append (Piece.test hlabel hlabel)).append
      Piece.label).append hbody).append (Piece.goto.append Piece.label)
  | forLoop init cond incr body =>
    have hg := hf.inside n true
    have hi := emitAll_piece init (f.inside n true) (n + 5) hg
    generalize hi' : emitAll (f.inside n true) (n + 5) init = i at hi
    have hlooped : (Frame.mk (f.inside n true).scope ((f.inside n true).label (n + 3))
        ((f.inside n true).label (n + 4))).Leaves := by
      constructor <;> exact fun l hl => by cases hl; exact hlabel
    have hb := emitAll_piece body _ (i.2 + 1) (hlooped.inside i.2 false)
    generalize hb' : emitAll _ (i.2 + 1) body = b at hb
    have hr := emitAll_piece incr (f.inside n true) b.2 hg
    unfold Stmt.emit
    simp only [hi', hb']
    have hid : n < n + 5 := by omega
    refine @Piece.inside (n + 5) _ _ f n true ?_ hid
    have hbody := hb.inside (Nat.lt_succ_self _)
    exact (((((((hi.append (Piece.goto.append Piece.label)).append
      (Piece.test hlabel hlabel)).append Piece.label).append hbody).append
      (Piece.goto.append Piece.label)).append hr).append (Piece.goto.append Piece.label))
  | fan body =>
    have hrow : (Frame.mk f.scope f.exit (f.label (n + 2))).Leaves :=
      ⟨hf.1, fun l hl => by cases hl; exact hlabel⟩
    have hb := emitAll_piece body _ (n + 6) (hrow.inside (n + 5) true)
    have hbody := (hb.inside (Nat.lt_succ_self _)).mono (Nat.le_add_right n 5) (Nat.le_refl _)
    have htest {i j : Nat} : Piece f.scope n n [f.row (.branch [f.label i, f.label j])] :=
      Piece.branch fun l hl => by rcases List.mem_pair.mp hl with rfl | rfl <;> exact hlabel
    refine (Piece.append ?_ hbody).append
      (((Piece.goto.append Piece.label).append Piece.goto).append Piece.label)
    exact ((((Piece.goto.append Piece.label).append htest).append Piece.label).append
      htest).append Piece.label
  | leave how =>
    cases how with
    | brk => exact Piece.jump hf.1
    | cont => exact Piece.jump hf.2
    | ret => exact Piece.row trivial

theorem emitAll_piece (ss : List Stmt) (f : Frame) (n : Nat) (hf : f.Leaves) :
    Piece f.scope n (emitAll f n ss).2 (emitAll f n ss).1 := by
  cases ss with
  | nil => exact Piece.nil
  | cons s ss => exact (s.emit_piece f n hf).append (emitAll_piece ss f _ hf)

end

theorem textOf_piece (body : List Stmt) :
    Piece [] 0 (emitAll {} 0 body).2 (textOf body) :=
  emitAll_piece body {} 0 ⟨nofun, nofun⟩

end

/-! ## Entries from line to line -/

section

variable {text : Text} {s t : State} {k d pc : Nat} {x : String} {r : Record} {v : View}

theorem scopeAt_row {row : Row} (h : text[k]? = some row) :
    scopeAt (scopes text) k = row.scope := by
  obtain ⟨hk, rfl⟩ := List.getElem?_eq_some_iff.mp h
  simp [scopeAt, scopes, hk]

theorem lineAt_eq_some {line : Line} (h : lineAt text k = some line) :
    ∃ row, text[k]? = some row ∧ row.line = line := Option.map_eq_some_iff.mp h

/-- A branch stays in the scopes of its label. -/
theorem scope_of_jump {base : Scope} {lo hi target : Nat} (htext : Piece base lo hi text)
    {ls : List Label} {l : Label} (hk : lineAt text k = some (.branch ls)) (hl : l ∈ ls)
    (htarget : lineAt text target = some (.label l)) :
    scopeAt (scopes text) target <:+ scopeAt (scopes text) k := by
  obtain ⟨row, hrow, hline⟩ := lineAt_eq_some hk
  obtain ⟨row', hrow', hline'⟩ := lineAt_eq_some htarget
  have hbranch := htext.targeted row (List.mem_of_getElem? hrow)
  have hlabel := htext.targeted row' (List.mem_of_getElem? hrow')
  rw [Row.Targeted, hline] at hbranch
  rw [Row.Targeted, hline'] at hlabel
  rw [scopeAt_row hrow, scopeAt_row hrow', ← show l.scope = row'.scope from hlabel]
  exact hbranch l hl

theorem open_of_resolve (h : resolve text pc x = some d) : Open (scopes text) d pc := by
  have hfind := List.find?_some h
  simp only [Bool.and_eq_true, decide_eq_true_eq] at hfind
  exact hfind.2

theorem declares_of_resolve (h : resolve text pc x = some d) : declares text d x := by
  have hfind := List.find?_some h
  simp only [Bool.and_eq_true] at hfind
  exact hfind.1

theorem touches_declared (h : declares text d x) : Touches text d d := by
  unfold declares at h
  unfold Touches
  split at h
  · next hline => rw [hline]
  · exact nomatch h

theorem Src.put_of_not_rebinds {entry : String → Option Record} {isOut : Bool}
    {old : Option Record} {src : Src} (h : ¬src.Rebinds isOut) :
    src.put k entry isOut old = old := by
  cases src with
  | name y => exact absurd trivial h
  | copy o y => exact absurd trivial h
  | slice y => exact if_neg h

theorem Src.put_of_follows {entry : String → Option Record} {isOut : Bool} {old : Option Record}
    {src : Src} (h : src.Follows isOut) : src.put k entry isOut old = src.record k entry := by
  cases src with
  | name y => rfl
  | copy o y =>
    obtain rfl : isOut = false := h
    rfl
  | slice y => exact if_pos h

/-- A line leaves the entries of the variables it does not touch. -/
theorem record_succ (h : ¬Touches text k d) : record text (k + 1) d = record text k d := by
  unfold Touches at h
  rw [record]
  cases hline : lineAt text k with
  | none => rfl
  | some line =>
    rw [hline] at h
    cases line with
    | decl y isOut init => exact if_neg h
    | assign y src =>
      dsimp only at h ⊢
      split
      · next hfound => exact Src.put_of_not_rebinds fun hsrc => h ⟨hfound, hsrc⟩
      · rfl
    | use y => rfl
    | label l => rfl
    | branch ls => rfl
    | ret => rfl

/-- Lines that do not touch a variable leave its entry. -/
theorem record_eq {a b : Nat} (hab : a ≤ b) (h : ∀ k, a ≤ k → k < b → ¬Touches text k d) :
    record text b d = record text a d := by
  induction b, hab using Nat.le_induction with
  | base => rfl
  | succ b hb ih =>
    rw [record_succ (h b hb (Nat.lt_succ_self b))]
    exact ih fun k hk hkb => h k hk (hkb.trans (Nat.lt_succ_self b))

/-- The lines that an entry names come before it. -/
def Record.Below (k : Nat) (r : Record) : Prop := r.ptr < k ∧ r.len < k

theorem Record.Below.succ (h : r.Below k) : r.Below (k + 1) :=
  ⟨h.1.trans (Nat.lt_succ_self k), h.2.trans (Nat.lt_succ_self k)⟩

theorem Src.record_below {entry : String → Option Record} (src : Src)
    (hentry : ∀ y r, entry y = some r → r.Below k) (h : src.record k entry = some r) :
    r.Below (k + 1) := by
  cases src with
  | name y => exact (hentry y r h).succ
  | copy o y =>
    obtain ⟨r', hr', rfl⟩ := Option.map_eq_some_iff.mp h
    exact ⟨Nat.lt_succ_self k, (hentry y r' hr').succ.2⟩
  | slice y =>
    cases h
    exact ⟨Nat.lt_succ_self k, Nat.lt_succ_self k⟩

theorem Src.put_below {entry : String → Option Record} {isOut : Bool} {old : Option Record}
    {src : Src} (hentry : ∀ y r, entry y = some r → r.Below k)
    (hold : ∀ r, old = some r → r.Below k) (h : src.put k entry isOut old = some r) :
    r.Below (k + 1) := by
  cases src with
  | name y => exact (hentry y r h).succ
  | copy o y =>
    cases isOut with
    | true => exact (hentry y r h).succ
    | false => exact (Src.copy o y).record_below hentry h
  | slice y =>
    cases isOut with
    | true => exact (Src.slice y).record_below hentry h
    | false => exact (hold r h).succ

theorem record_below (h : record text k d = some r) : r.Below k := by
  induction k generalizing d r with
  | zero => exact nomatch h
  | succ k ih =>
    have hentry (y : String) (r' : Record)
        (h : ((found text k y).bind (record text k)) = some r') : r'.Below k := by
      obtain ⟨d', -, hd'⟩ := Option.bind_eq_some_iff.mp h
      exact ih hd'
    rw [record] at h
    cases hline : lineAt text k with
    | none => exact (ih (by simpa only [hline] using h)).succ
    | some line =>
      simp only [hline] at h
      cases line with
      | decl y isOut init =>
        dsimp only at h
        split at h
        · cases init with
          | own v info =>
            cases h
            exact ⟨Nat.lt_succ_self k, Nat.lt_succ_self k⟩
          | of src => exact src.record_below hentry h
        · exact (ih h).succ
      | assign y src =>
        dsimp only at h
        split at h
        · exact Src.put_below hentry (fun r h => ih h) h
        · exact (ih h).succ
      | use y => exact (ih h).succ
      | label l => exact (ih h).succ
      | branch ls => exact (ih h).succ
      | ret => exact (ih h).succ

theorem Record.Below.view_update (h : r.Below k) (regs : Nat → Option View) (w : Option View) :
    r.view (Function.update regs k w) = r.view regs := by
  simp only [Record.view, Function.update_of_ne h.1.ne, Function.update_of_ne h.2.ne]

theorem Record.view_update_self (regs : Nat → Option View) (v : View) :
    Record.view (Function.update regs k (some v)) ⟨k, k⟩ = some v := by
  simp [Record.view]

/-! ## What a step keeps -/

/-- The entry of every variable in scope is the array the source says it is. -/
def Kept (text : Text) (s : State) : Prop :=
  ∀ d x, declares text d x → Open (scopes text) d s.pc →
    ∃ r v, record text s.pc d = some r ∧ r.view s.regs = some v ∧ s.vals d = some v

theorem Kept.own (h : Kept text s) (hx : Own text s.pc x) :
    ∃ r v, (found text s.pc x).bind (record text s.pc) = some r ∧ r.view s.regs = some v ∧
      codeView text s x = some v ∧ sourceView text s x = some v := by
  obtain ⟨d, hresolve, hfound⟩ := hx
  obtain ⟨r, v, hr, hv, hd⟩ := h d x (declares_of_resolve hresolve) (open_of_resolve hresolve)
  refine ⟨r, v, ?_, hv, ?_, ?_⟩
  · rw [hfound, Option.bind_some, hr]
  · simp [codeView, hfound, hr, hv]
  · rw [sourceView, hresolve, Option.bind_some, hd]

/-- What an assignment puts into an entry is what it says. -/
theorem Kept.src (h : Kept text s) {src : Src} (hown : Own text s.pc src.source) (lo hi : Int) :
    ∃ r v, (src.record s.pc fun y => (found text s.pc y).bind (record text s.pc)) = some r ∧
      r.view (Function.update s.regs s.pc (src.eval (codeView text s) lo hi)) = some v ∧
      src.eval (sourceView text s) lo hi = some v := by
  obtain ⟨r, v, hr, hv, hcode, hsource⟩ := h.own hown
  have hbelow : r.Below s.pc := by
    obtain ⟨d, -, hd⟩ := Option.bind_eq_some_iff.mp hr
    exact record_below hd
  cases src with
  | name y =>
    refine ⟨r, v, hr, ?_, hsource⟩
    rw [hbelow.view_update]
    exact hv
  | copy o y =>
    simp only [Src.source] at hr hcode hsource
    refine ⟨{ r with ptr := s.pc }, { v with ptr := .elem o 0 }, ?_, ?_, ?_⟩
    · simp [Src.record, hr]
    · simp only [Record.view, Option.bind_eq_bind, Option.bind_eq_some_iff,
        Option.some.injEq] at hv
      obtain ⟨p, -, l, hl, rfl⟩ := hv
      simp [Record.view, Src.eval, hcode, Function.update_of_ne hbelow.2.ne, hl]
    · simp [Src.eval, hsource]
  | slice y =>
    simp only [Src.source] at hcode hsource
    refine ⟨⟨s.pc, s.pc⟩, ⟨v.ptr.add lo, hi - lo⟩, rfl, ?_, ?_⟩
    · have heval : (Src.slice y).eval (codeView text s) lo hi = some ⟨v.ptr.add lo, hi - lo⟩ := by
        simp [Src.eval, hcode]
      rw [heval]
      exact Record.view_update_self s.regs _
    · simp [Src.eval, hsource]

/-- The variables a line does not touch keep their entries and their values. -/
theorem Kept.frame (h : Kept text s) (hdecl : declares text d x)
    (hopen : Open (scopes text) d (s.pc + 1)) (hd : d < s.pc) (htouch : ¬Touches text s.pc d)
    {vals : Nat → Option View} (hvals : vals d = s.vals d) (w : Option View) :
    ∃ r v, record text (s.pc + 1) d = some r ∧
      r.view (Function.update s.regs s.pc w) = some v ∧ vals d = some v := by
  obtain ⟨r, v, hr, hv, hvd⟩ := h d x hdecl (hopen.of_le hd (Nat.le_succ _))
  refine ⟨r, v, (record_succ htouch).trans hr, ?_, hvals.trans hvd⟩
  rw [(record_below hr).view_update]
  exact hv

/-- A line that touches nothing. -/
theorem Kept.skip (h : Kept text s) (htouch : ∀ d, ¬Touches text s.pc d) :
    Kept text { s with pc := s.pc + 1 } := by
  intro d x hdecl hopen
  have hd : d ≠ s.pc := fun heq => htouch d (heq ▸ touches_declared hdecl)
  have hlt : d < s.pc := Nat.lt_of_le_of_ne (Nat.le_of_lt_succ hopen.1) hd
  obtain ⟨r, v, hr, hv⟩ := h d x hdecl (hopen.of_le hlt (Nat.le_succ _))
  exact ⟨r, v, (record_succ (htouch d)).trans hr, hv⟩

theorem kept_next {lo hi : Int} {line : Line} (h : Kept text s)
    (hline : lineAt text s.pc = some line) (hmet : Met text s (.next lo hi)) :
    Kept text (s.exec text lo hi) := by
  unfold Met at hmet
  unfold State.exec
  rw [hline] at hmet ⊢
  have hlt {d : Nat} {p : Nat} (ho : Open (scopes text) d (p + 1)) (hne : d ≠ p) : d < p := by
    have := ho.1
    omega
  cases line with
  | decl y isOut init =>
    intro d x hdecl hopen
    dsimp only at hopen ⊢
    by_cases hd : d = s.pc
    · subst hd
      have hrecord : record text (s.pc + 1) s.pc = init.record s.pc fun y =>
          (found text s.pc y).bind (record text s.pc) := by
        rw [record, hline]
        exact if_pos rfl
      rw [hrecord, Function.update_self]
      cases init with
      | own v info =>
        obtain rfl : info = v := hmet
        exact ⟨_, info, rfl, Record.view_update_self s.regs info, rfl⟩
      | of src => exact h.src hmet lo hi
    · have htouch : ¬Touches text s.pc d := by
        unfold Touches
        rw [hline]
        exact hd
      exact h.frame hdecl hopen (hlt hopen hd) htouch (Function.update_of_ne hd _ _) _
  | assign y src =>
    obtain ⟨hown, e, hresolve, hfound, hfollows⟩ := hmet
    intro d x hdecl hopen
    dsimp only at hopen ⊢
    rw [hresolve]
    by_cases hd : d = e
    · subst hd
      have hrecord : record text (s.pc + 1) d = src.record s.pc fun y =>
          (found text s.pc y).bind (record text s.pc) := by
        rw [record, hline]
        exact (if_pos hfound).trans (Src.put_of_follows hfollows)
      dsimp only
      rw [hrecord, Function.update_self]
      exact h.src hown lo hi
    · have htouch : ¬Touches text s.pc d := by
        unfold Touches
        rw [hline]
        rintro ⟨hfound', -⟩
        exact hd (Option.some.inj (hfound'.symm.trans hfound))
      have hne : d ≠ s.pc := by
        rintro rfl
        simp [declares, hline] at hdecl
      exact h.frame hdecl hopen (hlt hopen hne) htouch (Function.update_of_ne hd _ _) _
  | use y => exact h.skip fun d => by simp [Touches, hline]
  | label l => exact h.skip fun d => by simp [Touches, hline]
  | branch ls => exact h.skip fun d => by simp [Touches, hline]
  | ret => exact h.skip fun d => by simp [Touches, hline]

/-- A jump within the scopes of its target that passes over no line that touches a variable visible
there. -/
theorem kept_jump {base : Scope} {lo hi target : Nat} (htext : Piece base lo hi text)
    {ls : List Label} {l : Label} (h : Kept text s) (hbranch : lineAt text s.pc = some (.branch ls))
    (hl : l ∈ ls) (htarget : lineAt text target = some (.label l))
    (hmet : Met text s (.jump target)) : Kept text { s with pc := target } := by
  intro d x hdecl hopen
  dsimp only at hopen ⊢
  have hsource (d : Nat) : ¬Touches text s.pc d := by simp [Touches, hbranch]
  have hland (d : Nat) : ¬Touches text target d := by simp [Touches, htarget]
  have hdeclared : d ≠ s.pc := fun heq => hsource d (heq ▸ touches_declared hdecl)
  have hne : s.pc ≠ target := by
    rintro heq
    rw [heq, htarget] at hbranch
    exact nomatch hbranch
  rcases Nat.lt_or_gt_of_ne hne with hforward | hback
  · have hbetween : ∀ k, s.pc ≤ k → k < target → ¬Touches text k d := by
      intro k hk hkt htouch
      rcases Nat.eq_or_lt_of_le hk with rfl | hk
      · exact hsource d htouch
      · exact hmet k (.inl ⟨hk, hkt⟩) d htouch hopen
    have hd : d < s.pc := by
      by_contra hge
      exact hbetween d (Nat.not_lt.mp hge) hopen.1 (touches_declared hdecl)
    rw [record_eq (Nat.le_of_lt hforward) hbetween]
    exact h d x hdecl (hopen.of_le hd (Nat.le_of_lt hforward))
  · have hbetween : ∀ k, target ≤ k → k < s.pc → ¬Touches text k d := by
      intro k hk hkt htouch
      rcases Nat.eq_or_lt_of_le hk with rfl | hk
      · exact hland d htouch
      · exact hmet k (.inr ⟨hk, hkt⟩) d htouch hopen
    rw [← record_eq (Nat.le_of_lt hback) hbetween]
    have hscope := scope_of_jump htext hbranch hl htarget
    exact h d x hdecl (htext.nested.open_of_suffix hopen (Nat.le_of_lt hback) hscope)

theorem kept_step {base : Scope} {lo hi : Nat} (htext : Piece base lo hi text) {m : Move}
    (h : Kept text s) (hstep : Guarded (Step text) (Met text) s m t) : Kept text t := by
  obtain ⟨hstep, hmet⟩ := hstep
  cases hstep with
  | next hline _ => exact kept_next h hline hmet
  | jump hbranch hl htarget => exact kept_jump htext h hbranch hl htarget hmet

theorem kept_start : Kept text {} := fun _ _ _ hopen => absurd hopen.1 (Nat.not_lt_zero _)

/-- In every state a run reaches whose jumps pass over no assignment of a variable visible where
they land, the code takes a name it finds for the array the source says it is. -/
theorem denotes_of_run {body : List Stmt} {ms : List Move} {s : State} {x : String}
    (h : Run (Guarded (Step (textOf body)) (Met (textOf body))) {} ms s)
    (hx : Own (textOf body) s.pc x) :
    ∃ v, codeView (textOf body) s x = some v ∧ sourceView (textOf body) s x = some v := by
  have hkept : Kept (textOf body) s :=
    h.inv (Kept (textOf body)) kept_start fun _ _ _ => kept_step (textOf_piece body)
  obtain ⟨r, v, -, -, hcode, hsource⟩ := hkept.own hx
  exact ⟨v, hcode, hsource⟩

end

/-- `x: [4]int`. -/
def array (x : String) (object : Nat) : Stmt :=
  .decl x false (.own ⟨.elem object 0, 4⟩ ⟨.elem object 0, 4⟩)

/-- `a = move b`, then `a`. -/
theorem denotes_of_run_move :
    let text := textOf [array "a" 0, array "b" 1, .assign "a" (.name "b"), .use "a"]
    let s := ((State.exec text {} 0 0).exec text 0 0).exec text 0 0
    ∃ v, codeView text s "a" = some v ∧ sourceView text s "a" = some v := by
  intro text s
  have hrun : Run (Guarded (Step text) (Met text)) {} [.next 0 0, .next 0 0, .next 0 0] s := by
    refine .snoc (.snoc (.snoc .nil ⟨.next rfl rfl, rfl⟩) ⟨.next rfl rfl, rfl⟩) ⟨.next rfl rfl, ?_⟩
    exact ⟨⟨1, by decide, by decide⟩, 0, by decide, by decide, trivial⟩
  exact denotes_of_run hrun ⟨0, by decide, by decide⟩

/-- `if c { a = move b }` with `c` false: afterwards the code takes `a` for `b`. -/
theorem not_denotes :
    let text := textOf [array "a" 0, array "b" 1, .ite [] [.assign "a" (.name "b")] [], .use "a"]
    let s := State.exec text { (State.exec text {} 0 0).exec text 0 0 with pc := 6 } 0 0
    Run (Step text) {} [.next 0 0, .next 0 0, .jump 6, .next 0 0] s ∧
      lineAt text s.pc = some (.use "a") ∧ Own text s.pc "a" ∧
      codeView text s "a" = some ⟨.elem 1 0, 4⟩ ∧ sourceView text s "a" = some ⟨.elem 0 0, 4⟩ := by
  refine ⟨?_, rfl, ⟨0, by decide, by decide⟩, by decide, by decide⟩
  refine .snoc (.snoc (.snoc (.snoc .nil (.next rfl rfl)) (.next rfl rfl)) ?_) (.next rfl rfl)
  have hbranch : lineAt (textOf [array "a" 0, array "b" 1,
      .ite [] [.assign "a" (.name "b")] [], .use "a"]) 2 = some (.branch [⟨0, []⟩, ⟨2, []⟩]) := rfl
  have hlabel : (⟨2, []⟩ : Label) ∈ [⟨0, []⟩, (⟨2, []⟩ : Label)] := by decide
  exact .jump hbranch hlabel rfl

end Arche.Codegen.ArrayRebind
