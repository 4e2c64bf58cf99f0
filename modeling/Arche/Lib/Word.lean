import Mathlib.Data.Int.ModEq

/-!
# Integer formats

A format is a width and a sign. Its values are the integers `wrap` leaves alone, and
arithmetic in a format is arithmetic up to congruence: `wrap_eq_iff` says that `wrap`
forgets exactly the multiples of `2 ^ width`.
-/

namespace Arche.Lib

/-- An integer format. -/
structure Word where
  width : Nat
  signed : Bool
deriving DecidableEq, Repr

namespace Word

variable {w v : Word} {x y : Int}

/-- The value of the format that is congruent to `x`. -/
def wrap (w : Word) (x : Int) : Int :=
  if w.signed then x.bmod (2 ^ w.width) else x % (2 ^ w.width : Nat)

/-- `x` is a value of the format. -/
def Holds (w : Word) (x : Int) : Prop := w.wrap x = x

instance (w : Word) (x : Int) : Decidable (w.Holds x) := inferInstanceAs (Decidable (w.wrap x = x))

theorem wrap_modEq (w : Word) (x : Int) : w.wrap x ≡ x [ZMOD (2 ^ w.width : Nat)] := by
  unfold wrap
  split
  · exact Int.bmod_emod
  · exact Int.mod_modEq x _

theorem wrap_eq_iff : w.wrap x = w.wrap y ↔ x ≡ y [ZMOD (2 ^ w.width : Nat)] := by
  constructor
  · intro h
    exact (w.wrap_modEq x).symm.trans (h ▸ w.wrap_modEq y)
  · intro h
    unfold wrap
    split
    · rw [← Int.emod_bmod, h, Int.emod_bmod]
    · exact h

@[simp] theorem wrap_wrap (w : Word) (x : Int) : w.wrap (w.wrap x) = w.wrap x :=
  wrap_eq_iff.mpr (w.wrap_modEq x)

theorem holds_wrap (w : Word) (x : Int) : w.Holds (w.wrap x) := w.wrap_wrap x

theorem holds_iff : w.Holds x ↔
    if w.signed then -(2 ^ w.width : Nat) ≤ 2 * x ∧ 2 * x < (2 ^ w.width : Nat)
    else 0 ≤ x ∧ x < (2 ^ w.width : Nat) := by
  have hpos : 0 < 2 ^ w.width := Nat.two_pow_pos _
  unfold Holds wrap
  split
  · constructor
    · intro h
      have hlo := Int.le_bmod (x := x) hpos
      have hhi := Int.bmod_lt (x := x) hpos
      omega
    · rintro ⟨hlo, hhi⟩
      exact Int.bmod_eq_of_le_mul_two (by omega) (by omega)
  · constructor
    · intro h
      rw [← h]
      exact ⟨Int.emod_nonneg _ (by omega), Int.emod_lt_of_pos _ (by omega)⟩
    · rintro ⟨hlo, hhi⟩
      exact Int.emod_eq_of_lt hlo hhi

/-- The values of a format have no gap between `0` and any of them. -/
theorem Holds.between (h : w.Holds x) (hy : 0 ≤ y ∧ y ≤ x ∨ x ≤ y ∧ y ≤ 0) : w.Holds y := by
  rw [holds_iff] at h ⊢
  split
  · next hs =>
    rw [if_pos hs] at h
    omega
  · next hs =>
    rw [if_neg hs] at h
    omega

/-- The values of a format are values of a wider one of the same sign. -/
theorem Holds.of_le (h : w.Holds x) (hle : w.width ≤ v.width) (hsign : w.signed = v.signed) :
    v.Holds x := by
  have hpow : 2 ^ w.width ≤ 2 ^ v.width := Nat.pow_le_pow_right (by decide) hle
  rw [holds_iff] at h ⊢
  rw [hsign] at h
  split at h
  · next hs =>
    rw [if_pos hs]
    omega
  · next hs =>
    rw [if_neg hs]
    omega

/-- A narrower format sees only what the wider one keeps. -/
theorem wrap_wrap_of_le (h : w.width ≤ v.width) (x : Int) : w.wrap (v.wrap x) = w.wrap x := by
  refine wrap_eq_iff.mpr ((v.wrap_modEq x).of_dvd ?_)
  exact Int.natCast_dvd_natCast.mpr (Nat.pow_dvd_pow 2 h)

theorem wrap_neg (w : Word) (x : Int) : w.wrap (-w.wrap x) = w.wrap (-x) :=
  wrap_eq_iff.mpr (w.wrap_modEq x).neg

theorem wrap_add (w : Word) (x y : Int) : w.wrap (w.wrap x + w.wrap y) = w.wrap (x + y) :=
  wrap_eq_iff.mpr ((w.wrap_modEq x).add (w.wrap_modEq y))

theorem wrap_sub (w : Word) (x y : Int) : w.wrap (w.wrap x - w.wrap y) = w.wrap (x - y) :=
  wrap_eq_iff.mpr ((w.wrap_modEq x).sub (w.wrap_modEq y))

theorem wrap_mul (w : Word) (x y : Int) : w.wrap (w.wrap x * w.wrap y) = w.wrap (x * y) :=
  wrap_eq_iff.mpr ((w.wrap_modEq x).mul (w.wrap_modEq y))

end Word

end Arche.Lib
