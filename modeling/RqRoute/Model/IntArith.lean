import RqRoute.Model.Arith

/-! # Strict `int` arithmetic

The operations of C on `int`, which have no result when it does not fit or when a divisor
is 0. Where they have one, it is the result modulo 2^32. -/

namespace RqRoute

open Checked

/-- What leaves an operation without a result. -/
inductive IntFault where
  | overflow
  | divByZero
deriving DecidableEq, Repr

/-- The exact result `x` of an operation, when an `int` can hold it. -/
def strictInt (x : ℤ) : Except IntFault ℤ := do
  check (FitsInt x) .overflow
  return x

def strictAdd (a b : ℤ) : Except IntFault ℤ := strictInt (a + b)

def strictSub (a b : ℤ) : Except IntFault ℤ := strictInt (a - b)

def strictMul (a b : ℤ) : Except IntFault ℤ := strictInt (a * b)

def strictDiv (a b : ℤ) : Except IntFault ℤ := do
  check (b ≠ 0) .divByZero
  strictInt (a.tdiv b)

variable {a b c x y : ℤ}

theorem strictInt_eq_ok : strictInt x = .ok y ↔ FitsInt x ∧ x = y := by
  simp [strictInt, bind_eq_ok]

theorem strictInt_of_fits (h : FitsInt x) : strictInt x = .ok x := strictInt_eq_ok.mpr ⟨h, rfl⟩

theorem strictAdd_eq_ok : strictAdd a b = .ok c ↔ FitsInt (a + b) ∧ a + b = c := strictInt_eq_ok

theorem strictDiv_eq_ok :
    strictDiv a b = .ok c ↔ b ≠ 0 ∧ FitsInt (a.tdiv b) ∧ a.tdiv b = c := by
  simp [strictDiv, bind_eq_ok, strictInt_eq_ok]

/-- A result is also the result modulo 2^32. -/
theorem toInt_of_strictInt (h : strictInt x = .ok y) : toInt x = y := by
  obtain ⟨hfit, rfl⟩ := strictInt_eq_ok.mp h
  exact toInt_of_fits hfit

end RqRoute
