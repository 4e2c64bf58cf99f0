import Mathlib.Order.Defs.LinearOrder
import Mathlib.Order.Lattice
import Mathlib.Tactic.Common

/-!
# Operator trees

An operator tree has operands at its leaves and a binary operator at every inner node. Read
from left to right it is a first operand and a list of links, each an operator with the operand
behind it.

A tree is in order if no operator has a looser one at the root of its left operand, and if the
root of its right operand is a tighter one. So the operators of one precedence associate to the
left, and the root is the last of the loosest operators: a first operand and a list of links
are read from one ordered tree at most.
-/

namespace Arche.Lib.Precedence

variable {α β γ : Type}

inductive Tree (α β : Type) where
  | leaf (a : α)
  | node (left : Tree α β) (op : β) (right : Tree α β)

namespace Tree

/-- The leftmost operand. -/
def first : Tree α β → α
  | leaf a => a
  | node l _ _ => l.first

/-- The operators from left to right, each with the operand behind it. -/
def links : Tree α β → List (β × α)
  | leaf _ => []
  | node l op r => l.links ++ (op, r.first) :: r.links

/-- The operator at the root. -/
def root : Tree α β → Option β
  | leaf _ => none
  | node _ op _ => some op

/-- What holds of all leaves and of all operators. -/
def All (P : α → Prop) (Q : β → Prop) : Tree α β → Prop
  | leaf a => P a
  | node l op r => l.All P Q ∧ Q op ∧ r.All P Q

variable [LinearOrder γ] (prec : β → γ)

def Ordered : Tree α β → Prop
  | leaf _ => True
  | node l op r =>
    l.Ordered ∧ r.Ordered ∧ (∀ o ∈ l.root, prec op ≤ prec o) ∧ ∀ o ∈ r.root, prec op < prec o

variable {prec}

/-- The root is the loosest operator of an ordered tree. -/
theorem Ordered.root_le {t : Tree α β} (h : t.Ordered prec) {x : β × α} (hx : x ∈ t.links) :
    ∃ o ∈ t.root, prec o ≤ prec x.1 := by
  induction t with
  | leaf a => cases hx
  | node l op r ihl ihr =>
    obtain ⟨hl, hr, hle, hlt⟩ := h
    refine ⟨op, rfl, ?_⟩
    rcases List.mem_append.mp hx with hx | hx
    · obtain ⟨o, ho, hox⟩ := ihl hl hx
      exact le_trans (hle o ho) hox
    · rcases List.mem_cons.mp hx with rfl | hx
      · exact le_refl _
      · obtain ⟨o, ho, hox⟩ := ihr hr hx
        exact le_trans (le_of_lt (hlt o ho)) hox

theorem Ordered.left_le {l r : Tree α β} {op : β} (h : (node l op r).Ordered prec) :
    ∀ y ∈ l.links, prec op ≤ prec y.1 := by
  intro y hy
  obtain ⟨hl, -, hle, -⟩ := h
  obtain ⟨o, ho, hoy⟩ := hl.root_le hy
  exact le_trans (hle o ho) hoy

theorem Ordered.right_lt {l r : Tree α β} {op : β} (h : (node l op r).Ordered prec) :
    ∀ y ∈ r.links, prec op < prec y.1 := by
  intro y hy
  obtain ⟨-, hr, -, hlt⟩ := h
  obtain ⟨o, ho, hoy⟩ := hr.root_le hy
  exact lt_of_lt_of_le (hlt o ho) hoy

/-- A list is split in one way only at the last of its loosest operators. -/
theorem split_eq (x x' : β × α) {ls rs ls' rs' : List (β × α)}
    (hls : ∀ y ∈ ls, prec x.1 ≤ prec y.1) (hrs : ∀ y ∈ rs, prec x.1 < prec y.1)
    (hls' : ∀ y ∈ ls', prec x'.1 ≤ prec y.1) (hrs' : ∀ y ∈ rs', prec x'.1 < prec y.1)
    (h : ls ++ x :: rs = ls' ++ x' :: rs') : ls = ls' ∧ x = x' ∧ rs = rs' := by
  rcases List.append_eq_append_iff.mp h with ⟨as, hleft, hright⟩ | ⟨as, hleft, hright⟩
  · cases as with
    | nil =>
      cases hright
      exact ⟨by simpa using hleft.symm, rfl, rfl⟩
    | cons a as =>
      -- `x` would stand left of `x'`, and `x'` right of `x`
      cases hright
      have hx : prec x'.1 ≤ prec x.1 := hls' x (by simp [hleft])
      have hx' : prec x.1 < prec x'.1 := hrs x' (by simp)
      exact absurd hx (not_le_of_gt hx')
  · cases as with
    | nil =>
      cases hright
      exact ⟨by simpa using hleft, rfl, rfl⟩
    | cons a as =>
      cases hright
      have hx : prec x.1 ≤ prec x'.1 := hls x' (by simp [hleft])
      have hx' : prec x'.1 < prec x.1 := hrs' x (by simp)
      exact absurd hx (not_le_of_gt hx')

/-- A first operand and a list of links are read from one ordered tree at most. -/
theorem Ordered.unique {s t : Tree α β} (hs : s.Ordered prec) (ht : t.Ordered prec)
    (hfirst : s.first = t.first) (hlinks : s.links = t.links) : s = t := by
  induction s generalizing t with
  | leaf a =>
    cases t with
    | leaf b => exact congrArg leaf hfirst
    | node l op r => simp [links] at hlinks
  | node l op r ihl ihr =>
    cases t with
    | leaf b => simp [links] at hlinks
    | node l' op' r' =>
      obtain ⟨hll, hop, hrr⟩ := split_eq (op, r.first) (op', r'.first)
        hs.left_le hs.right_lt ht.left_le ht.right_lt hlinks
      obtain ⟨rfl, hrfirst⟩ := Prod.mk.inj hop
      rw [ihl hs.1 ht.1 hfirst hll, ihr hs.2.1 ht.2.1 hrfirst hrr]

end Tree

end Arche.Lib.Precedence
