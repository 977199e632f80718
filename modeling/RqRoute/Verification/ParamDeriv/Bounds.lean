import RqRoute.Model.ParamDeriv

/-! # What the assertions of `param_deriv` accept

Exactly the file sizes of one code block pass, and the parameters of one block follow. -/

namespace RqRoute

open Checked

/-! ## Rounding up -/

theorem ceildiv_of_nonneg {a b : ℤ} (hsum : 0 ≤ toInt (toInt (a + b) - 1)) :
    ceildiv a b = toInt (toInt (a + b) - 1) / b :=
  Int.tdiv_eq_ediv_of_nonneg hsum

theorem ceildiv_of_nonpos {a b : ℤ} (hsum : toInt (toInt (a + b) - 1) ≤ 0) :
    ceildiv a b = -(-toInt (toInt (a + b) - 1) / b) := by
  unfold ceildiv
  rw [← Int.tdiv_eq_ediv_of_nonneg (by omega), Int.neg_tdiv, Int.neg_neg]

/-- Away from the overflow of the sum, `ceildiv` rounds up. -/
theorem ceildiv_eq {a b : ℤ} (ha : 1 ≤ a) (hb : 1 ≤ b) (hab : a + b ≤ 2 ^ 31) :
    ceildiv a b = (a + b - 1) / b := by
  have hsum : toInt (toInt (a + b) - 1) = a + b - 1 := by
    unfold toInt
    omega
  rw [ceildiv_of_nonneg (by omega), hsum]

/-- The parameters of a file that is one code block of `K` symbols. -/
def oneBlock (K : ℤ) : CodingParams :=
  { T := 1024, n_srcsym_tot := K, n_cb := 1, K_large := K, n_large := 1 }

/-- The number of source symbols of a file. -/
def symbolCount (file_size : ℤ) : ℤ := (file_size + 1023) / 1024

/-- The largest file that is one code block. -/
def maxFileSize : ℤ := 51200000

theorem symbolCount_bounds {file_size : ℤ} (h : 1 ≤ file_size) (h' : file_size ≤ maxFileSize) :
    1 ≤ symbolCount file_size ∧ symbolCount file_size ≤ 50000 ∧
      (symbolCount file_size - 1) * 1024 < file_size ∧
      file_size ≤ symbolCount file_size * 1024 := by
  unfold symbolCount maxFileSize at *
  omega

theorem derivedParams_of_small {file_size : ℤ} (h : 1 ≤ file_size)
    (h' : file_size ≤ maxFileSize) :
    derivedParams file_size = oneBlock (symbolCount file_size) := by
  obtain ⟨hK, hK', -, -⟩ := symbolCount_bounds h h'
  have hn : ceildiv file_size pdT = symbolCount file_size := by
    rw [ceildiv_eq h (by decide) (by unfold maxFileSize pdT at *; omega)]
    unfold symbolCount pdT
    omega
  have hcb : ceildiv (symbolCount file_size) pdMaxK = 1 := by
    rw [ceildiv_eq hK (by decide) (by unfold pdMaxK; omega)]
    unfold pdMaxK
    omega
  have hlarge : ceildiv (symbolCount file_size) 1 = symbolCount file_size := by
    rw [ceildiv_eq hK (by decide) (by omega)]
    omega
  have hself : toInt (symbolCount file_size) = symbolCount file_size :=
    toInt_of_fits ⟨by omega, by omega⟩
  simp only [derivedParams, hn, hcb, hlarge]
  simp [oneBlock, pdT, hself]

/-- Outside of that range the number of code blocks is not 1. -/
theorem derivedParams_n_cb_ne_one {file_size : ℤ} (hfit : FitsInt file_size)
    (h : ¬(1 ≤ file_size ∧ file_size ≤ maxFileSize)) : (derivedParams file_size).n_cb ≠ 1 := by
  change ceildiv (ceildiv file_size pdT) pdMaxK ≠ 1
  unfold FitsInt at hfit
  unfold maxFileSize at h
  by_cases hbig : 1 ≤ file_size ∧ file_size < 2 ^ 31 - 1023
  · rw [ceildiv_eq hbig.1 (by decide) (by unfold pdT; omega)]
    have hn : 50001 ≤ (file_size + pdT - 1) / pdT := by
      unfold pdT
      omega
    rw [ceildiv_eq (by omega) (by decide) (by unfold pdMaxK pdT; omega)]
    unfold pdMaxK
    omega
  · -- the sum is at most 1023: the size is not positive, or the sum wrapped around
    have hsum : toInt (toInt (file_size + pdT) - 1) < 1024 := by
      unfold toInt pdT
      omega
    have hn : -2 ^ 21 ≤ ceildiv file_size pdT ∧ ceildiv file_size pdT ≤ 0 := by
      have hlow := (fitsInt_toInt (toInt (file_size + pdT) - 1)).1
      rcases Int.le_total 0 (toInt (toInt (file_size + pdT) - 1)) with hpos | hneg
      · rw [ceildiv_of_nonneg hpos]
        unfold pdT at *
        omega
      · rw [ceildiv_of_nonpos hneg]
        unfold pdT at *
        omega
    generalize ceildiv file_size pdT = n at hn
    have hsum' : toInt (toInt (n + pdMaxK) - 1) = n + pdMaxK - 1 := by
      unfold toInt pdMaxK
      omega
    rcases Int.le_total 0 (n + pdMaxK - 1) with hpos | hneg
    · rw [ceildiv_of_nonneg (by omega), hsum']
      unfold pdMaxK at *
      omega
    · rw [ceildiv_of_nonpos (by omega), hsum']
      unfold pdMaxK at *
      omega

theorem paramDeriv_of_small {file_size : ℤ} (h : 1 ≤ file_size) (h' : file_size ≤ maxFileSize) :
    paramDeriv file_size = .ok (oneBlock (symbolCount file_size)) := by
  obtain ⟨hK, hK', -, -⟩ := symbolCount_bounds h h'
  have hself : toInt (symbolCount file_size) = symbolCount file_size :=
    toInt_of_fits ⟨by omega, by omega⟩
  rw [paramDeriv, derivedParams_of_small h h']
  simp [oneBlock, check, hself]

/-- Every other size is stopped by the first assertion. -/
theorem paramDeriv_of_not_small {file_size : ℤ} (hfit : FitsInt file_size)
    (h : ¬(1 ≤ file_size ∧ file_size ≤ maxFileSize)) :
    paramDeriv file_size = .error .paramDerivBlocks := by
  simp [paramDeriv, check, derivedParams_n_cb_ne_one hfit h]

/-- `param_deriv` returns exactly on the sizes of one code block. -/
theorem paramDeriv_eq_ok_iff {file_size : ℤ} (hfit : FitsInt file_size) {P : CodingParams} :
    paramDeriv file_size = .ok P ↔
      (1 ≤ file_size ∧ file_size ≤ maxFileSize) ∧ P = oneBlock (symbolCount file_size) := by
  constructor
  · intro h
    have hsmall : 1 ≤ file_size ∧ file_size ≤ maxFileSize := by
      by_contra hout
      rw [paramDeriv_of_not_small hfit hout] at h
      cases h
    rw [paramDeriv_of_small hsmall.1 hsmall.2] at h
    exact ⟨hsmall, (Except.ok.inj h).symm⟩
  · rintro ⟨⟨h, h'⟩, rfl⟩
    exact paramDeriv_of_small h h'

end RqRoute
