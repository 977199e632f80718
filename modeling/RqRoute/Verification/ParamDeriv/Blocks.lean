import Mathlib.Data.Rat.Floor
import RqRoute.Library.EvenParts
import RqRoute.Verification.ParamDeriv.Bounds
import RqRoute.Verification.Segstate.Resume

/-! # The partition into code blocks

What `param_deriv` computes for any file size up to 2^31 - 1024: the source symbols in even
parts of at most `PD_MAX_K`. Only at the last of these sizes does an operation overflow. -/

namespace RqRoute

open Checked

/-! ## Strict and wrapped arithmetic -/

theorem ceildiv_of_strict {a b q : ℤ} (h : strictCeildiv a b = .ok q) : ceildiv a b = q := by
  simp only [strictCeildiv, bind_eq_ok] at h
  obtain ⟨x, hadd, y, hsub, hdiv⟩ := h
  rw [ceildiv, toInt_of_strictInt hadd, toInt_of_strictInt hsub]
  exact (strictDiv_eq_ok.mp hdiv).2.2

/-- Where the strict computation has a result, the wrapped one has the same. -/
theorem derivedParams_of_strict {file_size : ℤ} {P : CodingParams}
    (h : strictParams file_size = .ok P) : derivedParams file_size = P := by
  simp only [strictParams, bind_eq_ok, pure_eq_ok, Except.ok.injEq] at h
  obtain ⟨n, hn, n_cb, hcb, K, hK, prod, hprod, n_small, hsmall, n_large, hlarge, rfl⟩ := h
  simp only [derivedParams, ceildiv_of_strict hn, ceildiv_of_strict hcb, ceildiv_of_strict hK,
    toInt_of_strictInt hprod, toInt_of_strictInt hsmall, toInt_of_strictInt hlarge]

theorem strictCeildiv_eq {a b : ℤ} (ha : 1 ≤ a) (hb : 1 ≤ b) (hab : a + b < 2 ^ 31) :
    strictCeildiv a b = .ok ((a + b - 1) / b) := by
  have hadd : strictAdd a b = .ok (a + b) := strictInt_of_fits ⟨by omega, hab⟩
  have hsub : strictSub (a + b) 1 = .ok (a + b - 1) := strictInt_of_fits ⟨by omega, by omega⟩
  have hquot : (a + b - 1).tdiv b = (a + b - 1) / b := Int.tdiv_eq_ediv_of_nonneg (by omega)
  have hlow : 0 ≤ (a + b - 1) / b := Int.ediv_nonneg (by omega) (by omega)
  have hhigh : (a + b - 1) / b ≤ a + b - 1 := Int.ediv_le_self _ (by omega)
  rw [strictCeildiv, hadd, ok_bind, hsub, ok_bind, strictDiv_eq_ok, hquot]
  exact ⟨by omega, ⟨by omega, by omega⟩, rfl⟩

/-! ## The even partition -/

/-- The number of code blocks for `n` source symbols. -/
def blockCount (n : ℤ) : ℤ := (n + 49999) / 50000

/-- `n` source symbols in even code blocks. -/
def evenBlocks (n : ℤ) : CodingParams :=
  { T := 1024, n_srcsym_tot := n, n_cb := blockCount n
    K_large := EvenParts.large n (blockCount n)
    n_large := EvenParts.largeCount n (blockCount n) }

theorem symbolCount_range {file_size : ℤ} (h : 1 ≤ file_size) (h' : file_size ≤ 2 ^ 31 - 1024) :
    1 ≤ symbolCount file_size ∧ symbolCount file_size < 2 ^ 21 ∧
      symbolCount file_size * 1024 < 2 ^ 31 := by
  unfold symbolCount
  omega

theorem blockCount_range {n : ℤ} (h : 1 ≤ n) (h' : n < 2 ^ 21) :
    1 ≤ blockCount n ∧ blockCount n ≤ 42 ∧ blockCount n ≤ n ∧ n ≤ 50000 * blockCount n := by
  unfold blockCount
  omega

theorem strictParams_eq {file_size : ℤ} (h : 1 ≤ file_size) (h' : file_size < 2 ^ 31 - 1024) :
    strictParams file_size = .ok (evenBlocks (symbolCount file_size)) := by
  obtain ⟨hn, hn', -⟩ := symbolCount_range h h'.le
  have hsyms : strictCeildiv file_size pdT = .ok (symbolCount file_size) := by
    rw [strictCeildiv_eq h (by decide) (by unfold pdT; omega), symbolCount, pdT]
    congr 2
    omega
  generalize symbolCount file_size = n at *
  obtain ⟨hc, hc', -, -⟩ := blockCount_range hn hn'
  have hblocks : strictCeildiv n pdMaxK = .ok (blockCount n) := by
    rw [strictCeildiv_eq hn (by decide) (by unfold pdMaxK; omega), blockCount, pdMaxK]
    congr 2
    omega
  generalize hcount : blockCount n = c at *
  have hlarge : strictCeildiv n c = .ok (EvenParts.large n c) :=
    strictCeildiv_eq hn hc (by omega)
  have hlow : n ≤ EvenParts.large n c * c := EvenParts.le_large_mul (by omega)
  have hhigh : EvenParts.large n c * c < n + c := EvenParts.large_mul_lt (by omega)
  have hprod : strictMul (EvenParts.large n c) c = .ok (EvenParts.large n c * c) :=
    strictInt_of_fits ⟨by omega, by omega⟩
  have hsmall : strictSub (EvenParts.large n c * c) n = .ok (EvenParts.large n c * c - n) :=
    strictInt_of_fits ⟨by omega, by omega⟩
  have hcount' : strictSub c (EvenParts.large n c * c - n) = .ok (EvenParts.largeCount n c) :=
    strictInt_of_fits ⟨by omega, by omega⟩
  simp only [strictParams, hsyms, hblocks, hlarge, hprod, hsmall, hcount', ok_bind, pure_eq_ok]
  rw [evenBlocks, hcount, pdT]

theorem strictTotal_evenBlocks {n : ℤ} (hn : 1 ≤ n) (hn' : n < 2 ^ 21) :
    strictTotal (evenBlocks n) = .ok n := by
  obtain ⟨hc, hc', hcn, -⟩ := blockCount_range hn hn'
  simp only [evenBlocks]
  generalize blockCount n = c at *
  have hK : 0 < EvenParts.large n c := EvenParts.lt_large (by omega) (by omega)
  have hK' : EvenParts.large n c ≤ n := by
    apply EvenParts.large_le (by omega)
    exact le_mul_of_one_le_right (by omega) hc
  have hl : 1 ≤ EvenParts.largeCount n c := EvenParts.largeCount_pos (by omega)
  have hlc : EvenParts.largeCount n c ≤ c := EvenParts.largeCount_le (by omega)
  have htotal := EvenParts.total n c
  generalize EvenParts.large n c = K at *
  generalize EvenParts.largeCount n c = l at *
  have hlarge : 0 ≤ K * l := Int.mul_nonneg (by omega) (by omega)
  have hsmall : 0 ≤ (K - 1) * (c - l) := Int.mul_nonneg (by omega) (by omega)
  -- both products are at most their sum, which is the number of symbols
  have hmulLarge : strictMul K l = .ok (K * l) := strictInt_of_fits ⟨by omega, by omega⟩
  have hsize : strictSub K 1 = .ok (K - 1) := strictInt_of_fits ⟨by omega, by omega⟩
  have hrest : strictSub c l = .ok (c - l) := strictInt_of_fits ⟨by omega, by omega⟩
  have hmulSmall : strictMul (K - 1) (c - l) = .ok ((K - 1) * (c - l)) :=
    strictInt_of_fits ⟨by omega, by omega⟩
  simp only [strictTotal, hmulLarge, hsize, hrest, hmulSmall, ok_bind]
  rw [strictAdd_eq_ok]
  exact ⟨⟨by omega, by omega⟩, htotal⟩

/-- Without the first assertion `param_deriv` runs through without overflow up to the size
before the last. -/
theorem strictParamDeriv_eq {file_size : ℤ} (h : 1 ≤ file_size)
    (h' : file_size < 2 ^ 31 - 1024) :
    strictParamDeriv file_size =
      .ok (evenBlocks (symbolCount file_size), symbolCount file_size) := by
  obtain ⟨hn, hn', -⟩ := symbolCount_range h h'.le
  rw [strictParamDeriv, strictParams_eq h h', ok_bind, strictTotal_evenBlocks hn hn']
  rfl

/-- At the last size `file_size + PD_T` is 2^31. -/
theorem strictParamDeriv_last : strictParamDeriv (2 ^ 31 - 1024) = .error .overflow := by
  decide

theorem derivedParams_eq_evenBlocks {file_size : ℤ} (h : 1 ≤ file_size)
    (h' : file_size ≤ 2 ^ 31 - 1024) :
    derivedParams file_size = evenBlocks (symbolCount file_size) := by
  by_cases hlast : file_size = 2 ^ 31 - 1024
  · -- the sum wraps around to -2^31, and subtracting 1 wraps it back
    subst hlast
    decide
  · exact derivedParams_of_strict (strictParams_eq h (by omega))

/-! ## Every block gets its symbols -/

/-- The number of symbols of each code block. -/
def blockSizes (P : CodingParams) : List ℤ := EvenParts.parts P.K_large P.n_large P.n_cb

/-- The partition of a file of `file_size` bytes, in the terms of the assertions. -/
structure BlockPartition (file_size : ℤ) (P : CodingParams) : Prop where
  large : 1 ≤ P.n_large ∧ P.n_large ≤ P.n_cb
  K_large_le : P.K_large ≤ 50000
  symbols : P.n_srcsym_tot = ⌈(file_size : ℚ) / 1024⌉
  total : P.K_large * P.n_large + (P.K_large - 1) * (P.n_cb - P.n_large) = P.n_srcsym_tot
  block_pos : ∀ K ∈ blockSizes P, 1 ≤ K

theorem symbolCount_eq_ceil (file_size : ℤ) : symbolCount file_size = ⌈(file_size : ℚ) / 1024⌉ := by
  have hceil := Rat.ceil_intCast_div_natCast file_size 1024
  rw [Nat.cast_ofNat] at hceil
  rw [hceil, symbolCount]
  push_cast
  omega

theorem evenBlocks_small {n : ℤ} (hn : 1 ≤ n) (hn' : n < 2 ^ 21) :
    (evenBlocks n).n_large < (evenBlocks n).n_cb → 1 ≤ (evenBlocks n).K_large - 1 := by
  obtain ⟨hc, -, hcn, -⟩ := blockCount_range hn hn'
  exact EvenParts.small_pos (by omega) hcn

theorem blockPartition_evenBlocks {file_size : ℤ} (h : 1 ≤ file_size)
    (h' : file_size ≤ 2 ^ 31 - 1024) :
    BlockPartition file_size (evenBlocks (symbolCount file_size)) := by
  obtain ⟨hn, hn', -⟩ := symbolCount_range h h'
  obtain ⟨hc, -, hcn, hmax⟩ := blockCount_range hn hn'
  constructor
  case large => exact ⟨EvenParts.largeCount_pos (by omega), EvenParts.largeCount_le (by omega)⟩
  case K_large_le => exact EvenParts.large_le (by omega) hmax
  case symbols => exact symbolCount_eq_ceil file_size
  case total => exact EvenParts.total _ _
  case block_pos =>
    intro K hK
    exact EvenParts.mem_parts_pos (EvenParts.lt_large (m := 0) (by omega) (by omega))
      (evenBlocks_small hn hn') hK

namespace BlockPartition

variable {file_size : ℤ} {P : CodingParams}

theorem length_blockSizes (h : BlockPartition file_size P) :
    (blockSizes P).length = P.n_cb.toNat :=
  EvenParts.length_parts (by have := h.large; omega) h.large.2

theorem sum_blockSizes (h : BlockPartition file_size P) :
    (blockSizes P).sum = P.n_srcsym_tot := by
  rw [← h.total]
  exact EvenParts.sum_parts (by have := h.large; omega) h.large.2

/-- The size that the sender's loop over the blocks computes for block `cb`. -/
theorem getElem?_blockSizes (h : BlockPartition file_size P) {cb : ℕ} (hcb : cb < P.n_cb) :
    (blockSizes P)[cb]? = some (P.K_large - if P.n_large ≤ cb then 1 else 0) :=
  EvenParts.getElem?_parts (by have := h.large; omega) hcb

end BlockPartition

/-- The parameters of every size are those of a file that a segment writes out whole. -/
theorem derivedParams_partition {file_len : ℕ} (h : 1 ≤ file_len)
    (h' : file_len ≤ 2 ^ 31 - 1024) : (derivedParams file_len).Partition file_len := by
  have hlow : (1 : ℤ) ≤ file_len := by omega
  have hhigh : (file_len : ℤ) ≤ 2 ^ 31 - 1024 := by omega
  obtain ⟨hn, hn', hbytes⟩ := symbolCount_range hlow hhigh
  have hblocks := blockPartition_evenBlocks hlow hhigh
  rw [derivedParams_eq_evenBlocks hlow hhigh]
  constructor
  case T_pos => simp [evenBlocks]
  case len_pos => exact h
  case symbols =>
    simp only [evenBlocks, symbolCount]
    omega
  case large => exact hblocks.large
  case total => exact hblocks.total
  case small => exact evenBlocks_small hn hn'
  case fits =>
    simp only [evenBlocks]
    exact ⟨by omega, hbytes⟩

/-- The blocks that `segstate_init` sets up have these sizes. -/
theorem segstateInit_blockSizes {M : Type} {host : Host M} {file_nbr : ℤ} {file_len : ℕ}
    {S : Segstate} (h : segstateInit host file_nbr file_len = .ok S) :
    S.cbstates.map (fun C => (C.K : ℤ)) = blockSizes S.P := by
  simp only [segstateInit, bind_eq_ok, pure_eq_ok, Except.ok.injEq] at h
  obtain ⟨P, hP, rfl⟩ := h
  obtain ⟨⟨hlow, hhigh⟩, rfl⟩ := (paramDeriv_eq_ok_iff (fitsInt_toInt _)).mp hP
  obtain ⟨hK, -, -, -⟩ := symbolCount_bounds hlow hhigh
  have hself : ((symbolCount (toInt file_len)).toNat : ℤ) = symbolCount (toInt file_len) :=
    Int.toNat_of_nonneg (by omega)
  simp only [oneBlock, blockSizes, EvenParts.parts, codeblockstateInit, List.map_append,
    List.map_replicate, hself, Int.sub_self, Int.toNat_zero, List.replicate_zero, List.map_nil]

/-! ## What the assertions accept, and beyond -/

/-- `param_deriv` returns exactly for the files of one code block, with the parameters of one
block. Beyond them its computation partitions any file evenly, and overflows only at the last
size. -/
theorem param_deriv_partition {file_size : ℤ} (hfit : FitsInt file_size) :
    ((∃ P, paramDeriv file_size = .ok P) ↔ 1 ≤ file_size ∧ file_size ≤ 51200000) ∧
    (∀ P, paramDeriv file_size = .ok P →
      P.n_cb = 1 ∧ P.n_large = 1 ∧ P.K_large = P.n_srcsym_tot ∧ P.n_srcsym_tot ≤ 50000 ∧
        (P.K_large - 1) * 1024 < file_size ∧ file_size ≤ P.K_large * 1024) ∧
    (1 ≤ file_size → file_size ≤ 2 ^ 31 - 1024 →
      BlockPartition file_size (derivedParams file_size) ∧
      (strictParamDeriv file_size =
          .ok (derivedParams file_size, (derivedParams file_size).n_srcsym_tot) ↔
        file_size ≠ 2 ^ 31 - 1024)) := by
  refine ⟨?_, ?_, ?_⟩
  · constructor
    · rintro ⟨P, hP⟩
      exact ((paramDeriv_eq_ok_iff hfit).mp hP).1
    · intro hsmall
      exact ⟨_, (paramDeriv_eq_ok_iff hfit).mpr ⟨hsmall, rfl⟩⟩
  · intro P hP
    obtain ⟨⟨hlow, hhigh⟩, rfl⟩ := (paramDeriv_eq_ok_iff hfit).mp hP
    obtain ⟨-, hmax, hlt, hle⟩ := symbolCount_bounds hlow hhigh
    exact ⟨rfl, rfl, rfl, hmax, hlt, hle⟩
  · intro hlow hhigh
    rw [derivedParams_eq_evenBlocks hlow hhigh]
    refine ⟨blockPartition_evenBlocks hlow hhigh, ?_⟩
    constructor
    · rintro hok rfl
      rw [strictParamDeriv_last] at hok
      cases hok
    · intro hne
      exact strictParamDeriv_eq hlow (by omega)

theorem param_deriv_partition_two_blocks :
    FitsInt 51200001 ∧ BlockPartition 51200001 (derivedParams 51200001) ∧
      (derivedParams 51200001).n_cb = 2 ∧
      strictParamDeriv 51200001 = .ok (derivedParams 51200001, 50001) := by
  have hfit : FitsInt 51200001 := by decide
  obtain ⟨hblocks, hstrict⟩ := (param_deriv_partition hfit).2.2 (by decide) (by decide)
  exact ⟨hfit, hblocks, by decide, hstrict.mpr (by decide)⟩

/-- The last size is positive and at most 2^31 - 1024, and it overflows. -/
theorem last_size_overflows :
    ¬ ∀ file_size : ℤ, 1 ≤ file_size → file_size ≤ 2 ^ 31 - 1024 →
      ∃ r, strictParamDeriv file_size = .ok r := by
  intro h
  obtain ⟨r, hr⟩ := h (2 ^ 31 - 1024) (by decide) (by decide)
  rw [strictParamDeriv_last] at hr
  cases hr

end RqRoute
