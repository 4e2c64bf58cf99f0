import Arche.Lib.Interning

/-!
# The type intern table

A type is a number in an arena. A constructor searches the nodes for one that is the same type and
appends a node if there is none. Equality of types is equality of numbers.

* A name in a node is a pointer into the string pool, here a place in it. `none` is `NULL`.
* The sentinel at index 0 is left out of `nodes`: type `t` is the node at `t - 1`.
* An array argument with its count is a list. A `NULL` array of names is one of `NULL`s.
* `after` and `idAt` are the arena and the ids of a history of calls.
-/

namespace Arche.Semantic.SemTypes

open Arche.Lib

/-! ## Nodes -/

abbrev TypeId := Nat

/-- `TYID_UNKNOWN`. -/
def tyidUnknown : TypeId := 0

inductive PrimKind
  | void
  | bool
  | int
  | float
  | char
  | str
  | count
  deriving DecidableEq

inductive TyKind
  | unknown
  | prim
  | nominal
  | slice
  | array
  | tuple
  | sum
  | handle
  | eff
  | archetypeCategory
  | func
  | proc
  | map
  | policy
  deriving DecidableEq

/-- The four kinds that share `data.func`. -/
inductive CallableKind
  | func
  | proc
  | map
  | policy
  deriving DecidableEq

def CallableKind.kind : CallableKind → TyKind
  | .func => .func
  | .proc => .proc
  | .map => .map
  | .policy => .policy

/-- A `const char *` of the pool. -/
abbrev Name := Option Nat

inductive TypeNode
  | prim (p : PrimKind)
  | nominal (name : Name) (backing : TypeId)
  | slice (elem : TypeId)
  | array (elem : TypeId) (len : Int)
  | tuple (fields : List (Name × TypeId))
  | sum (name : Name) (variants : Option (List (Name × List TypeId)))
  | handle (archetypeName : Name)
  | eff (externName : Name) (outSlots : List TypeId) (outSlotNames : Option (List Name))
  | archetypeCategory
  | callable (kind : CallableKind) (params returns : List TypeId)
  deriving DecidableEq

def TypeNode.kind : TypeNode → TyKind
  | .prim _ => .prim
  | .nominal _ _ => .nominal
  | .slice _ => .slice
  | .array _ _ => .array
  | .tuple _ => .tuple
  | .sum _ _ => .sum
  | .handle _ => .handle
  | .eff _ _ _ => .eff
  | .archetypeCategory => .archetypeCategory
  | .callable k _ _ => k.kind

structure TypeArena where
  nodes : List TypeNode
  strings : List String

/-- `ty_arena_new`. -/
def tyArenaNew : TypeArena := ⟨[], []⟩

/-! ## Constructors -/

/-- `intern_str`. -/
def internStr (a : TypeArena) : Option String → Name × TypeArena
  | none => (none, a)
  | some s =>
    let r := findOrPush (· == s) s a.strings
    (some r.1, { a with strings := r.2 })

/-- The names of an array, interned in order. -/
def internStrs (a : TypeArena) : List (Option String) → List Name × TypeArena
  | [] => ([], a)
  | s :: ss =>
    let r := internStr a s
    let rs := internStrs r.2 ss
    (r.1 :: rs.1, rs.2)

/-- The search over the nodes, and `push_node` if it finds none. -/
def internNode (a : TypeArena) (same : TypeNode → Bool) (node : TypeNode) : TypeId × TypeArena :=
  let r := findOrPush same node a.nodes
  (r.1 + 1, { a with nodes := r.2 })

/-- Two arrays of one length whose entries are equal. -/
def sameArray {α : Type} [DecidableEq α] (l m : List α) : Bool :=
  l.length == m.length && (l.zip m).all fun x => x.1 == x.2

def tyidOfPrim (a : TypeArena) (p : PrimKind) : TypeId × TypeArena :=
  internNode a (fun n => match n with | .prim q => q == p | _ => false) (.prim p)

def tyidOfNominalSub (a : TypeArena) (name : Option String) (backing : TypeId) :
    TypeId × TypeArena :=
  let r := internStr a name
  internNode r.2 (fun n => match n with | .nominal m b => m == r.1 && b == backing | _ => false)
    (.nominal r.1 backing)

def tyidOfNominal (a : TypeArena) (name : Option String) : TypeId × TypeArena :=
  tyidOfNominalSub a name tyidUnknown

def tyidOfSlice (a : TypeArena) (elem : TypeId) : TypeId × TypeArena :=
  internNode a (fun n => match n with | .slice e => e == elem | _ => false) (.slice elem)

def tyidOfArray (a : TypeArena) (elem : TypeId) (rank : Int) : TypeId × TypeArena :=
  internNode a (fun n => match n with | .array e len => e == elem && len == rank | _ => false)
    (.array elem rank)

def tyidOfTuple (a : TypeArena) (fields : List (Option String × TypeId)) : TypeId × TypeArena :=
  let r := internStrs a (fields.map Prod.fst)
  internNode r.2
    (fun n => match n with
      | .tuple fs => sameArray fs (r.1.zip (fields.map Prod.snd))
      | _ => false)
    (.tuple (r.1.zip (fields.map Prod.snd)))

def tyidSumForward (a : TypeArena) (name : Option String) : TypeId × TypeArena :=
  let r := internStr a name
  internNode r.2 (fun n => match n with | .sum m _ => m == r.1 | _ => false) (.sum r.1 none)

/-- `tyid_sum_complete`. A sum that is complete stays as it is. -/
def tyidSumComplete (a : TypeArena) (sum : TypeId)
    (variants : List (Option String × List TypeId)) : TypeArena :=
  if sum = 0 then a
  else
    match a.nodes[sum - 1]? with
    | some (.sum name none) =>
      let r := internStrs a (variants.map Prod.fst)
      { r.2 with
        nodes := a.nodes.set (sum - 1) (.sum name (some (r.1.zip (variants.map Prod.snd)))) }
    | _ => a

def tyidOfHandle (a : TypeArena) (archetypeName : Option String) : TypeId × TypeArena :=
  let r := internStr a archetypeName
  internNode r.2 (fun n => match n with | .handle m => m == r.1 | _ => false) (.handle r.1)

/-- `iname[64]` after the loop. Every name from the 64th on goes to the last cell. -/
def inames (names : List Name) : List Name :=
  names.zipIdx.foldl (fun iname x => iname.set (if x.2 < 64 then x.2 else 63) x.1)
    (List.replicate 64 none)

/-- `out_slot_names[j]`. -/
def slotName (names : Option (List Name)) (j : Nat) : Name :=
  (names.bind (·[j]?)).join

/-- The comparison of `intern_eff`. -/
def sameEff (ext : Name) (types : List TypeId) (iname : List Name) : TypeNode → Bool
  | .eff e outs names =>
    e == ext && sameArray outs types &&
      (List.range (min types.length 64)).all fun j => slotName names j == (iname[j]?).join
  | _ => false

/-- The names that a new effect keeps. -/
def keptNames (iname : List Name) (count : Nat) : List Name :=
  (List.range count).map fun j => if j < 64 then (iname[j]?).join else none

/-- `intern_eff`. -/
def internEff (a : TypeArena) (externName : Option String)
    (outSlots : List (TypeId × Option String)) : TypeId × TypeArena :=
  let r := internStr a externName
  let rs := internStrs r.2 (outSlots.map Prod.snd)
  let iname := inames rs.1
  let types := outSlots.map Prod.fst
  let hasName := outSlots.any fun s => s.2.isSome
  internNode rs.2 (sameEff r.1 types iname)
    (.eff r.1 types (if hasName then some (keptNames iname types.length) else none))

def tyidOfEffStructural (a : TypeArena) (outSlots : List TypeId) : TypeId × TypeArena :=
  internEff a none (outSlots.map (·, none))

def tyidOfEffConcrete (a : TypeArena) (externName : Option String) (outSlots : List TypeId) :
    TypeId × TypeArena :=
  internEff a externName (outSlots.map (·, none))

def tyidOfEffNamed (a : TypeArena) (externName : Option String)
    (outSlots : List (TypeId × Option String)) : TypeId × TypeArena :=
  internEff a externName outSlots

def tyidOfArchetypeCategory (a : TypeArena) : TypeId × TypeArena :=
  internNode a (fun n => match n with | .archetypeCategory => true | _ => false)
    .archetypeCategory

/-- `intern_callable`. -/
def internCallable (a : TypeArena) (kind : CallableKind) (params returns : List TypeId) :
    TypeId × TypeArena :=
  internNode a
    (fun n => match n with
      | .callable k ps rs => k == kind && sameArray ps params && sameArray rs returns
      | _ => false)
    (.callable kind params returns)

def tyidOfFunc (a : TypeArena) (params returns : List TypeId) : TypeId × TypeArena :=
  internCallable a .func params returns

def tyidOfProc (a : TypeArena) (params returns : List TypeId) : TypeId × TypeArena :=
  internCallable a .proc params returns

def tyidOfMap (a : TypeArena) (params : List TypeId) : TypeId × TypeArena :=
  internCallable a .map params []

def tyidOfPolicy (a : TypeArena) (params : List TypeId) : TypeId × TypeArena :=
  internCallable a .policy params []

/-! ## Accessors -/

section Accessors

variable (a : TypeArena) (t : TypeId)

/-- The node of an id that is in the arena. -/
def node : Option TypeNode := if t = 0 then none else a.nodes[t - 1]?

/-- The text behind a pointer. -/
def text (ss : List String) (p : Name) : Option String := p.bind (ss[·]?)

def tyidKind : TyKind :=
  match node a t with
  | some n => n.kind
  | none => .unknown

def tyidIsProc : Bool :=
  match node a t with
  | some (.callable .proc _ _) => true
  | _ => false

def tyidIsCallable : Bool :=
  match node a t with
  | some (.callable .func _ _) | some (.callable .proc _ _) => true
  | _ => false

def tyidPrim : PrimKind :=
  match node a t with
  | some (.prim p) => p
  | _ => .count

def tyidNominalName : Name :=
  match node a t with
  | some (.nominal name _) => name
  | _ => none

def tyidBacking : TypeId :=
  match node a t with
  | some (.nominal _ backing) => backing
  | _ => tyidUnknown

def tyidHandleName : Name :=
  match node a t with
  | some (.handle name) => name
  | _ => none

def tyidSumName : Name :=
  match node a t with
  | some (.sum name _) => name
  | _ => none

def tyidElem : TypeId :=
  match node a t with
  | some (.slice elem) | some (.array elem _) => elem
  | _ => tyidUnknown

def tyidArrayLen : Int :=
  match node a t with
  | some (.array _ len) => len
  | _ => -1

def tyidTupleCount : Nat :=
  match node a t with
  | some (.tuple fields) => fields.length
  | _ => 0

def tyidTupleFieldName (i : Nat) : Name :=
  match node a t with
  | some (.tuple fields) => (fields[i]?).elim none Prod.fst
  | _ => none

def tyidTupleFieldType (i : Nat) : TypeId :=
  match node a t with
  | some (.tuple fields) => (fields[i]?).elim tyidUnknown Prod.snd
  | _ => tyidUnknown

def tyidEffExternName : Name :=
  match node a t with
  | some (.eff ext _ _) => ext
  | _ => none

def tyidEffOutCount : Int :=
  match node a t with
  | some (.eff _ outs _) => outs.length
  | _ => -1

def tyidEffOutAt (i : Nat) : TypeId :=
  match node a t with
  | some (.eff _ outs _) => (outs[i]?).getD tyidUnknown
  | _ => tyidUnknown

def tyidEffOutNameAt (i : Nat) : Name :=
  match node a t with
  | some (.eff _ outs names) => if i < outs.length then slotName names i else none
  | _ => none

end Accessors

/-! ## Histories -/

/-- A call that returns an id. -/
inductive Call
  | ofPrim (p : PrimKind)
  | ofNominal (name : Option String)
  | ofNominalSub (name : Option String) (backing : TypeId)
  | ofSlice (elem : TypeId)
  | ofArray (elem : TypeId) (rank : Int)
  | ofTuple (fields : List (Option String × TypeId))
  | sumForward (name : Option String)
  | ofHandle (archetypeName : Option String)
  | ofEffStructural (outSlots : List TypeId)
  | ofEffConcrete (externName : Option String) (outSlots : List TypeId)
  | ofEffNamed (externName : Option String) (outSlots : List (TypeId × Option String))
  | ofArchetypeCategory
  | ofFunc (params returns : List TypeId)
  | ofProc (params returns : List TypeId)
  | ofMap (params : List TypeId)
  | ofPolicy (params : List TypeId)

def Call.run (a : TypeArena) : Call → TypeId × TypeArena
  | .ofPrim p => tyidOfPrim a p
  | .ofNominal name => tyidOfNominal a name
  | .ofNominalSub name backing => tyidOfNominalSub a name backing
  | .ofSlice elem => tyidOfSlice a elem
  | .ofArray elem rank => tyidOfArray a elem rank
  | .ofTuple fields => tyidOfTuple a fields
  | .sumForward name => tyidSumForward a name
  | .ofHandle name => tyidOfHandle a name
  | .ofEffStructural outs => tyidOfEffStructural a outs
  | .ofEffConcrete ext outs => tyidOfEffConcrete a ext outs
  | .ofEffNamed ext slots => tyidOfEffNamed a ext slots
  | .ofArchetypeCategory => tyidOfArchetypeCategory a
  | .ofFunc params returns => tyidOfFunc a params returns
  | .ofProc params returns => tyidOfProc a params returns
  | .ofMap params => tyidOfMap a params
  | .ofPolicy params => tyidOfPolicy a params

inductive Op
  | call (c : Call)
  | sumComplete (sum : TypeId) (variants : List (Option String × List TypeId))

def Op.run (a : TypeArena) : Op → TypeArena
  | .call c => (c.run a).2
  | .sumComplete sum variants => tyidSumComplete a sum variants

/-- The arena after a history. -/
def after (ops : List Op) : TypeArena := ops.foldl Op.run tyArenaNew

/-- The id that the call at `i` of a history returns. -/
def idAt (ops : List Op) (i : Nat) : TypeId :=
  match ops[i]? with
  | some (.call c) => (c.run (after (ops.take i))).1
  | _ => tyidUnknown

end Arche.Semantic.SemTypes
