import Mathlib.Data.Nat.Cast.Order.Ring
import Mathlib.Tactic.Ring

/-! # Work at a bounded rate

Work that is done in windows, each of which lasts about as long as the work in it needs at
the given rate. Windows follow one another with any pause between them. -/

namespace Pacing

variable {K : Type*} [CommRing K] [PartialOrder K] [IsOrderedRing K]

/-- From time `a` to time `b` the work `w` kept to `rate`, up to `slack` for each of `n`
windows. -/
def Within (rate slack a b : K) (n : ℕ) (w : K) : Prop := w ≤ rate * (b - a + n * slack)

variable {rate slack a b c v w : K} {n m : ℕ}

/-- One stretch of time after another. -/
theorem Within.append (h₁ : Within rate slack a b n v) (h₂ : Within rate slack b c m w) :
    Within rate slack a c (n + m) (v + w) := by
  calc v + w
      ≤ rate * (b - a + n * slack) + rate * (c - b + m * slack) := add_le_add h₁ h₂
    _ = rate * (c - a + (n + m : ℕ) * slack) := by
      rw [Nat.cast_add]
      ring

theorem Within.pause (hrate : 0 ≤ rate) (hab : a ≤ b) : Within rate slack a b 0 0 := by
  rw [Within, Nat.cast_zero, zero_mul, add_zero]
  exact mul_nonneg hrate (sub_nonneg.mpr hab)

/-- A pause at the end does no harm. -/
theorem Within.wait (hrate : 0 ≤ rate) (h : Within rate slack a b n w) (hbc : b ≤ c) :
    Within rate slack a c n w := by
  have hpause := h.append (Within.pause hrate hbc)
  rwa [Nat.add_zero, add_zero] at hpause

/-- A higher rate allows as much and more. -/
theorem Within.faster {rate' : K} (hrate : rate ≤ rate') (hslack : 0 ≤ slack) (hab : a ≤ b)
    (h : Within rate slack a b n w) : Within rate' slack a b n w := by
  have htime : 0 ≤ b - a + n * slack :=
    add_nonneg (sub_nonneg.mpr hab) (mul_nonneg (Nat.cast_nonneg n) hslack)
  exact h.trans (mul_le_mul_of_nonneg_right hrate htime)

/-- From time `a` to time `b` no more than a burst above the rate: what a bucket of that size
lets through, whatever went before. -/
def Conforms (rate slack burst a b : K) (n : ℕ) (w : K) : Prop :=
  w ≤ rate * (b - a + n * slack) + burst

/-- Paced work, with unpaced work at its ends. -/
theorem Within.conforms {burst u : K} (hrate : 0 ≤ rate) (h : Within rate slack a b n w)
    (hbc : b ≤ c) (hu : u ≤ burst) : Conforms rate slack burst a c n (w + u) :=
  add_le_add (h.wait hrate hbc) hu

end Pacing
