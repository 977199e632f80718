import Mathlib.Tactic.Linarith
import Mathlib.Tactic.Ring
import RqRoute.Model.Timeutil

/-! # Time spans in whole nanoseconds

What the conversion to a `timespec` loses is less than one nanosecond. -/

namespace RqRoute

/-- A reading of the clock at any time or later. -/
theorem exists_timespec_ge (x : ℚ) : ∃ ts : Timespec, ts.Normal ∧ x ≤ ts.seconds := by
  refine ⟨⟨⌈x⌉, 0⟩, ⟨le_rfl, by norm_num⟩, ?_⟩
  have hseconds : (⟨⌈x⌉, 0⟩ : Timespec).seconds = ⌈x⌉ := by simp [Timespec.seconds]
  rw [hseconds]
  exact Int.le_ceil x

theorem Timespec.Valid.seconds_nonneg {ts : Timespec} (h : ts.Valid) : 0 ≤ ts.seconds := by
  have hsec : (0 : ℚ) ≤ ts.tv_sec := Int.cast_nonneg h.sec
  have hnsec : (0 : ℚ) ≤ ts.tv_nsec := Int.cast_nonneg h.nsec
  exact add_nonneg hsec (div_nonneg hnsec (by norm_num))

theorem truncate_of_nonneg {x : ℚ} (h : 0 ≤ x) : truncate x = ⌊x⌋ := if_pos h

theorem getDeltaSeconds_eq (a b : Timespec) : getDeltaSeconds a b = a.seconds - b.seconds := by
  unfold getDeltaSeconds Timespec.seconds
  push_cast
  ring

/-- The timestamp that is `delta` later, cut to whole nanoseconds; the carry into the seconds is
one at most, so that the assertion holds. -/
theorem addDeltaTo_eq {ts : Timespec} (h : ts.Normal) {delta : ℚ} (hfits : FitsInt ⌊delta⌋) :
    ∃ ts', addDeltaTo ts delta = some ts' ∧ ts'.Normal ∧
      ts.seconds + delta - 1 / 10 ^ 9 < ts'.seconds ∧ ts'.seconds ≤ ts.seconds + delta := by
  obtain ⟨hnonneg, hlt⟩ := h
  have hfract : 0 ≤ Int.fract delta * 10 ^ 9 := mul_nonneg (Int.fract_nonneg delta) (by norm_num)
  have hnsec : truncate (ts.tv_nsec + (delta - ⌊delta⌋) * 10 ^ 9) =
      ts.tv_nsec + ⌊Int.fract delta * 10 ^ 9⌋ := by
    have hsum : 0 ≤ (ts.tv_nsec : ℚ) + Int.fract delta * 10 ^ 9 :=
      add_nonneg (by exact_mod_cast hnonneg) hfract
    rw [Int.self_sub_floor, truncate_of_nonneg hsum, Int.floor_intCast_add]
  have hfrac : 0 ≤ ⌊Int.fract delta * 10 ^ 9⌋ := Int.floor_nonneg.mpr hfract
  have hfrac_lt : ⌊Int.fract delta * 10 ^ 9⌋ < 10 ^ 9 := by
    have hlt_one := Int.fract_lt_one delta
    rw [Int.floor_lt]
    push_cast
    linarith
  have hlow := Int.lt_floor_add_one (Int.fract delta * 10 ^ 9)
  have hhigh := Int.floor_le (Int.fract delta * 10 ^ 9)
  have hdelta := Int.floor_add_fract delta
  -- the sum of both timestamps, wherever the carry goes
  have hbounds : ∀ ts' : Timespec, ts'.seconds = ts.tv_sec + ⌊delta⌋ +
      (ts.tv_nsec + (⌊Int.fract delta * 10 ^ 9⌋ : ℚ)) / 10 ^ 9 →
      ts.seconds + delta - 1 / 10 ^ 9 < ts'.seconds ∧ ts'.seconds ≤ ts.seconds + delta := by
    intro ts' hts'
    rw [hts', Timespec.seconds]
    rw [show (10 : ℚ) ^ 9 = 1000000000 by norm_num] at hlow hhigh ⊢
    constructor <;> linarith only [hlow, hhigh, hdelta]
  unfold addDeltaTo
  simp only [if_neg (not_not_intro hfits), hnsec]
  by_cases hcarry : ts.tv_nsec + ⌊Int.fract delta * 10 ^ 9⌋ ≥ 10 ^ 9
  · rw [if_pos hcarry, if_pos (by omega)]
    refine ⟨_, rfl, ⟨?_, ?_⟩, hbounds _ ?_⟩
    · show 0 ≤ ts.tv_nsec + ⌊Int.fract delta * 10 ^ 9⌋ - 10 ^ 9
      omega
    · show ts.tv_nsec + ⌊Int.fract delta * 10 ^ 9⌋ - 10 ^ 9 < 10 ^ 9
      omega
    · rw [Timespec.seconds]
      push_cast
      ring
  · rw [if_neg hcarry]
    refine ⟨_, rfl, ⟨?_, ?_⟩, hbounds _ ?_⟩
    · show 0 ≤ ts.tv_nsec + ⌊Int.fract delta * 10 ^ 9⌋
      omega
    · show ts.tv_nsec + ⌊Int.fract delta * 10 ^ 9⌋ < 10 ^ 9
      omega
    · rw [Timespec.seconds]
      push_cast
      ring

variable {secs : ℚ}

theorem getTimespecFromSeconds_of_nonneg (h : 0 ≤ secs) :
    getTimespecFromSeconds secs =
      { tv_sec := ⌊secs⌋, tv_nsec := ⌊Int.fract secs * 10 ^ 9⌋ } := by
  have hfract : 0 ≤ Int.fract secs * 10 ^ 9 :=
    mul_nonneg (Int.fract_nonneg secs) (by norm_num)
  simp only [getTimespecFromSeconds, truncate_of_nonneg h, Int.self_sub_floor,
    truncate_of_nonneg hfract]

/-- The time span that a nonnegative number of seconds converts to is valid. -/
theorem getTimespecFromSeconds_valid (h : 0 ≤ secs) : (getTimespecFromSeconds secs).Valid := by
  rw [getTimespecFromSeconds_of_nonneg h]
  constructor
  case sec => exact Int.floor_nonneg.mpr h
  case nsec => exact Int.floor_nonneg.mpr (mul_nonneg (Int.fract_nonneg secs) (by norm_num))
  case nsec_lt =>
    have hlt := Int.fract_lt_one secs
    rw [Int.floor_lt]
    push_cast
    linarith

/-- A sleep that takes such a span is shorter than wanted by less than a nanosecond. -/
theorem getTimespecFromSeconds_seconds (h : 0 ≤ secs) :
    secs < (getTimespecFromSeconds secs).seconds + 1 / 10 ^ 9 := by
  rw [getTimespecFromSeconds_of_nonneg h]
  have hnsec : Int.fract secs < (⌊Int.fract secs * 10 ^ 9⌋ : ℚ) / 10 ^ 9 + 1 / 10 ^ 9 := by
    rw [← add_div, lt_div_iff₀ (by norm_num)]
    exact Int.lt_floor_add_one _
  calc secs
      = ⌊secs⌋ + Int.fract secs := (Int.floor_add_fract secs).symm
    _ < ⌊secs⌋ + ((⌊Int.fract secs * 10 ^ 9⌋ : ℚ) / 10 ^ 9 + 1 / 10 ^ 9) := by
      linarith only [hnsec]
    _ = _ := (add_assoc _ _ _).symm

/-- Nor is it longer than wanted. -/
theorem getTimespecFromSeconds_seconds_le (h : 0 ≤ secs) :
    (getTimespecFromSeconds secs).seconds ≤ secs := by
  rw [getTimespecFromSeconds_of_nonneg h, Timespec.seconds]
  have hfloor := Int.floor_le (Int.fract secs * 10 ^ 9)
  have hsplit := Int.floor_add_fract secs
  rw [show (10 : ℚ) ^ 9 = 1000000000 by norm_num] at hfloor ⊢
  linarith only [hfloor, hsplit]

end RqRoute
