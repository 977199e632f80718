import RqRoute.Model.IntArith

/-! # Coding parameters

`param_deriv.c`. The assertions are checked on values that were all computed in
`int` arithmetic modulo 2^32. The same computation in strict arithmetic tells where nothing
overflows. -/

namespace RqRoute

open Checked

/-- `PD_T`, the symbol size in bytes. -/
def pdT : ℤ := 1024

/-- `PD_MAX_K`, the largest number of symbols of a code block. -/
def pdMaxK : ℤ := 50000

structure CodingParams where
  T : ℤ
  n_srcsym_tot : ℤ
  n_cb : ℤ
  K_large : ℤ
  n_large : ℤ
deriving DecidableEq, Repr

def ceildiv (a b : ℤ) : ℤ := (toInt (toInt (a + b) - 1)).tdiv b

/-- The values `param_deriv` computes, before it asserts anything about them. -/
def derivedParams (file_size : ℤ) : CodingParams :=
  let n_srcsym_tot := ceildiv file_size pdT
  let n_cb := ceildiv n_srcsym_tot pdMaxK
  let K_large := ceildiv n_srcsym_tot n_cb
  let n_small := toInt (toInt (K_large * n_cb) - n_srcsym_tot)
  let n_large := toInt (n_cb - n_small)
  { T := pdT, n_srcsym_tot, n_cb, K_large, n_large }

def paramDeriv (file_size : ℤ) : Except Fault CodingParams := do
  let P := derivedParams file_size
  check (P.n_cb = 1) .paramDerivBlocks
  check (1 ≤ P.n_large ∧ P.n_large ≤ P.n_cb) .paramDerivLarge
  check (toInt (toInt (P.K_large * P.n_large) +
    toInt (toInt (P.K_large - 1) * toInt (P.n_cb - P.n_large))) = P.n_srcsym_tot) .paramDerivTotal
  return P

/-! ## In strict arithmetic -/

def strictCeildiv (a b : ℤ) : Except IntFault ℤ := do
  strictDiv (← strictSub (← strictAdd a b) 1) b

/-- `derivedParams`. -/
def strictParams (file_size : ℤ) : Except IntFault CodingParams := do
  let n_srcsym_tot ← strictCeildiv file_size pdT
  let n_cb ← strictCeildiv n_srcsym_tot pdMaxK
  let K_large ← strictCeildiv n_srcsym_tot n_cb
  let n_small ← strictSub (← strictMul K_large n_cb) n_srcsym_tot
  let n_large ← strictSub n_cb n_small
  return { T := pdT, n_srcsym_tot, n_cb, K_large, n_large }

/-- The sum that the last assertion compares with `n_srcsym_tot`. -/
def strictTotal (P : CodingParams) : Except IntFault ℤ := do
  strictAdd (← strictMul P.K_large P.n_large)
    (← strictMul (← strictSub P.K_large 1) (← strictSub P.n_cb P.n_large))

/-- Everything `param_deriv` computes, without stopping at an assertion. -/
def strictParamDeriv (file_size : ℤ) : Except IntFault (CodingParams × ℤ) := do
  let P ← strictParams file_size
  let total ← strictTotal P
  return (P, total)

end RqRoute
