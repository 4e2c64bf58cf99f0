import Mathlib.Algebra.Order.Group.Defs
import Mathlib.Tactic.Abel
import Mathlib.Tactic.Common

/-!
# Cheapest ways along a chain

A chain is a list of steps, each done on one of two devices, and `xf` is the price of a change
between the devices. Chains and ways are written with the last step first, so that a
prefix of the chain is a tail of the list.

`best` is the usual table: the cheapest cost of a chain that ends on a device, from the table
of the chain without its last step. `backtrack` reads a way out of it. Among the cheapest ways it
is the one that, from the end on, changes the device as late as it can (`Sooner`), so it is
determined by the costs.
-/

namespace Arche.Lib.Chain

variable {α : Type} [AddCommGroup α]

/-- A step: what it costs on each device. -/
abbrev Step (α : Type) := Bool → α

variable (xf : α)

/-- The price of going from one device to another. -/
def hop (a b : Bool) : α := if a = b then 0 else xf

@[simp] theorem hop_self (a : Bool) : hop xf a a = 0 := if_pos rfl

@[simp] theorem hop_not (a : Bool) : hop xf (!a) a = xf := by
  cases a <;> rfl

/-- What a way costs that is left for device `d`. `start` is the price of coming to each device before
the first step. -/
def reach (start : Bool → α) : List (Step α) → List Bool → Bool → α
  | c :: cs, x :: xs, d => reach start cs xs x + c x + hop xf x d
  | _, _, d => start d

/-- From the end on, `xs` stays where `ys` changes, at the first step where they differ. -/
def Sooner : Bool → List Bool → List Bool → Prop
  | d, x :: xs, y :: ys => if x = y then Sooner x xs ys else x = d
  | _, _, _ => True

variable [LinearOrder α]

/-- `xs` is cheaper than `ys`, or as cheap and sooner. -/
def Wins (start : Bool → α) (cs : List (Step α)) (d p : Bool) (xs ys : List Bool) : Prop :=
  reach xf start cs xs d < reach xf start cs ys d ∨
    reach xf start cs xs d = reach xf start cs ys d ∧ Sooner p xs ys

theorem Sooner.antisymm {p : Bool} {xs ys : List Bool} (hlen : xs.length = ys.length)
    (h : Sooner p xs ys) (h' : Sooner p ys xs) : xs = ys := by
  induction xs generalizing p ys with
  | nil => exact (List.eq_nil_of_length_eq_zero hlen.symm).symm
  | cons x xs ih =>
    cases ys with
    | nil => cases hlen
    | cons y ys =>
      by_cases hxy : x = y
      · subst hxy
        rw [Sooner, if_pos rfl] at h h'
        rw [ih (Nat.succ.inj hlen) h h']
      · rw [Sooner, if_neg hxy] at h
        rw [Sooner, if_neg (Ne.symm hxy)] at h'
        exact absurd (h.trans h'.symm) hxy

/-- One way of a length wins against all others. -/
theorem Wins.antisymm {xf : α} {start : Bool → α} {cs : List (Step α)} {d p : Bool}
    {xs ys : List Bool} (hlen : xs.length = ys.length) (h : Wins xf start cs d p xs ys)
    (h' : Wins xf start cs d p ys xs) : xs = ys := by
  rcases h with hlt | ⟨heq, hs⟩
  · rcases h' with hgt | ⟨heq', -⟩
    · exact absurd hlt hgt.asymm
    · exact absurd hlt heq'.not_gt
  · rcases h' with hgt | ⟨-, hs'⟩
    · exact absurd hgt heq.not_gt
    · exact hs.antisymm hlen hs'

/-! ## The table -/

/-- The device to come from, with `v` the costs of being on each. -/
def source (v : Bool → α) (d : Bool) : Bool := if v d ≤ v (!d) + xf then d else !d

/-- The cost of coming to a device. -/
def arrive (v : Bool → α) (d : Bool) : α := if v d ≤ v (!d) + xf then v d else v (!d) + xf

variable (init : Bool → α)

def best : List (Step α) → Bool → α
  | [], d => init d
  | c :: cs, d => c d + arrive xf (best cs) d

/-- The way that ends on a device. -/
def backtrack : List (Step α) → Bool → List Bool
  | [], _ => []
  | _ :: cs, d => d :: backtrack cs (source xf (best xf init cs) d)

@[simp] theorem length_backtrack (cs : List (Step α)) (d : Bool) :
    (backtrack xf init cs d).length = cs.length := by
  induction cs generalizing d with
  | nil => rfl
  | cons c cs ih => rw [backtrack, List.length_cons, ih, List.length_cons]

theorem arrive_eq (v : Bool → α) (d : Bool) :
    arrive xf v d = v (source xf v d) + hop xf (source xf v d) d := by
  unfold arrive source
  split
  · rw [hop_self, add_zero]
  · rw [hop_not]

variable {xf init} {start : Bool → α}

/-- The table has the cost of the way it leads to. -/
theorem reach_backtrack (hinit : ∀ d, arrive xf init d = start d) (cs : List (Step α))
    (d : Bool) :
    reach xf start cs (backtrack xf init cs (source xf (best xf init cs) d)) d =
      arrive xf (best xf init cs) d := by
  induction cs generalizing d with
  | nil => exact (hinit d).symm
  | cons c cs ih =>
    rw [arrive_eq, backtrack, reach, ih]
    simp only [best]
    abel

theorem reach_backtrack_cons (hinit : ∀ d, arrive xf init d = start d) (c : Step α)
    (cs : List (Step α)) (x d : Bool) :
    reach xf start (c :: cs) (backtrack xf init (c :: cs) x) d =
      best xf init (c :: cs) x + hop xf x d := by
  rw [backtrack, reach, reach_backtrack hinit]
  simp only [best]
  abel

variable [IsOrderedAddMonoid α]

/-- A way that ends on a device which is cheapest wins, if its rest does. -/
theorem wins_of_last (hinit : ∀ d, arrive xf init d = start d) {c : Step α}
    {cs : List (Step α)} {x d p : Bool}
    (hrest : ∀ ys, ys.length = cs.length →
      Wins xf start cs x x (backtrack xf init cs (source xf (best xf init cs) x)) ys)
    (hother : ∀ ys, ys.length = cs.length →
      arrive xf (best xf init cs) (!x) ≤ reach xf start cs ys (!x))
    (hlast : best xf init (c :: cs) x + hop xf x d < best xf init (c :: cs) (!x) + hop xf (!x) d ∨
      best xf init (c :: cs) x + hop xf x d ≤ best xf init (c :: cs) (!x) + hop xf (!x) d ∧ x = p)
    {ys : List Bool} (hlen : ys.length = (c :: cs).length) :
    Wins xf start (c :: cs) d p (backtrack xf init (c :: cs) x) ys := by
  cases ys with
  | nil => cases hlen
  | cons y ys =>
    have hys : ys.length = cs.length := Nat.succ.inj hlen
    by_cases hy : x = y
    · subst hy
      rcases hrest ys hys with hlt | ⟨heq, hsoon⟩
      · left
        rw [backtrack, reach, reach, add_assoc, add_assoc]
        exact add_lt_add_left hlt _
      · right
        refine ⟨?_, ?_⟩
        · rw [backtrack, reach, reach, heq]
        · rw [backtrack, Sooner, if_pos rfl]
          exact hsoon
    · obtain rfl : y = !x := by
        cases x <;> cases y <;> first | rfl | exact absurd rfl hy
      have hge : best xf init (c :: cs) (!x) + hop xf (!x) d ≤
          reach xf start (c :: cs) ((!x) :: ys) d := by
        rw [reach, best, add_comm (c !x)]
        exact add_le_add_left (add_le_add_left (hother ys hys) _) _
      unfold Wins
      rw [reach_backtrack_cons hinit]
      rcases hlast with hlt | ⟨hle, rfl⟩
      · exact .inl (hlt.trans_le hge)
      · rcases (hle.trans hge).lt_or_eq with hlt | heq
        · exact .inl hlt
        · refine .inr ⟨heq, ?_⟩
          rw [backtrack, Sooner, if_neg hy]

/-- From every device the table leads to the way that wins. -/
theorem wins_backtrack (hinit : ∀ d, arrive xf init d = start d) {cs : List (Step α)}
    {d : Bool} {ys : List Bool} (hlen : ys.length = cs.length) :
    Wins xf start cs d d (backtrack xf init cs (source xf (best xf init cs) d)) ys := by
  induction cs generalizing d ys with
  | nil =>
    refine .inr ⟨?_, by simp [backtrack, Sooner]⟩
    simp [reach]
  | cons c cs ih =>
    refine wins_of_last hinit (fun ys h => ih h) (fun ys h => ?_) ?_ hlen
    · have := ih (d := !source xf (best xf init (c :: cs)) d) h
      rw [Wins, reach_backtrack hinit] at this
      exact this.elim le_of_lt fun h => le_of_eq h.1
    · unfold source
      split
      · next hle =>
        right
        rw [hop_self, add_zero, hop_not]
        exact ⟨hle, rfl⟩
      · next hgt =>
        left
        rw [hop_not, Bool.not_not, hop_self, add_zero]
        exact lt_of_not_ge hgt

/-- The way that ends on the device that is cheaper to leave for `d`, on the first one in a tie. -/
theorem wins_end (hinit : ∀ d, arrive xf init d = start d) {cs : List (Step α)} {d : Bool}
    {ys : List Bool} (hlen : ys.length = cs.length) :
    Wins xf start cs d false
      (backtrack xf init cs (decide (best xf init cs true + hop xf true d <
        best xf init cs false + hop xf false d))) ys := by
  cases cs with
  | nil =>
    refine .inr ⟨?_, by simp [backtrack, Sooner]⟩
    simp [reach]
  | cons c cs =>
    refine wins_of_last hinit (fun ys h => wins_backtrack hinit h) (fun ys h => ?_) ?_ hlen
    · have := wins_backtrack hinit h
        (d := !decide (best xf init (c :: cs) true + hop xf true d <
          best xf init (c :: cs) false + hop xf false d))
      rw [Wins, reach_backtrack hinit] at this
      exact this.elim le_of_lt fun h => le_of_eq h.1
    · by_cases hlt : best xf init (c :: cs) true + hop xf true d <
        best xf init (c :: cs) false + hop xf false d
      · rw [decide_eq_true hlt]
        exact .inl hlt
      · rw [decide_eq_false hlt]
        exact .inr ⟨le_of_not_gt hlt, rfl⟩

end Arche.Lib.Chain
