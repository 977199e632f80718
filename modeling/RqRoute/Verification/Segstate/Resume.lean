import Mathlib.Tactic.Zify
import RqRoute.Verification.Codec.Contract
import RqRoute.Verification.Segstate.Output

/-! # Output of several code blocks

`segstate_write_more` for any coding parameters that pass the assertions of `param_deriv`: the
blocks go through one buffer, and a write may end anywhere. -/

namespace RqRoute

open Checked Memory

variable {M : Type}

/-! ## The partition of a file -/

/-- A file of `file_len` bytes in symbols of `T` bytes, and these in code blocks of `K_large` or
`K_large - 1` symbols. -/
structure CodingParams.Partition (P : CodingParams) (file_len : ℕ) : Prop where
  T_pos : 1 ≤ P.T
  len_pos : 1 ≤ file_len
  symbols : P.n_srcsym_tot = (file_len + P.T - 1) / P.T
  large : 1 ≤ P.n_large ∧ P.n_large ≤ P.n_cb
  total : P.K_large * P.n_large + (P.K_large - 1) * (P.n_cb - P.n_large) = P.n_srcsym_tot
  small : P.n_large < P.n_cb → 1 ≤ P.K_large - 1
  fits : FitsInt (P.n_srcsym_tot * P.T)

/-- The number of symbols of a code block. -/
def blockSymbols (K n_large b : ℕ) : ℕ := K - if n_large ≤ b then 1 else 0

/-- The number of symbols before a code block. -/
def symbolsBefore (K n_large : ℕ) : ℕ → ℕ
  | 0 => 0
  | b + 1 => symbolsBefore K n_large b + blockSymbols K n_large b

/-- The partition in natural numbers. -/
structure Divided (T n n_cb K n_large file_len : ℕ) : Prop where
  T_pos : 1 ≤ T
  len_gt : (n - 1) * T < file_len
  len_le : file_len ≤ n * T
  large_pos : 1 ≤ n_large
  large_le : n_large ≤ n_cb
  total : K * n_large + (K - 1) * (n_cb - n_large) = n
  K_pos : 1 ≤ K
  small : n_large < n_cb → 2 ≤ K
  bytes_lt : n * T < 2 ^ 31

namespace CodingParams.Partition

variable {P : CodingParams} {file_len : ℕ}

/-- The symbols cover the file, and the last of them is needed. -/
theorem symbols_bounds (h : P.Partition file_len) :
    1 ≤ P.n_srcsym_tot ∧ P.n_srcsym_tot * P.T ≤ file_len + P.T - 1 ∧
      file_len + P.T - 1 < (P.n_srcsym_tot + 1) * P.T := by
  have hT := h.T_pos
  have hlen := h.len_pos
  rw [h.symbols]
  refine ⟨?_, Int.ediv_mul_le _ (by omega), Int.lt_ediv_add_one_mul_self _ (by omega)⟩
  rw [Int.le_ediv_iff_mul_le (by omega)]
  omega

theorem K_large_pos (h : P.Partition file_len) : 1 ≤ P.K_large := by
  have hlarge := h.large
  by_contra hneg
  have hall : P.n_large = P.n_cb := by
    by_contra hne
    have := h.small (by omega)
    omega
  have hprod : P.K_large * P.n_large ≤ 0 :=
    Int.mul_nonpos_of_nonpos_of_nonneg (by omega) (by omega)
  have htotal := h.total
  rw [← hall, Int.sub_self, Int.mul_zero] at htotal
  have := h.symbols_bounds.1
  omega

theorem exists_divided (h : P.Partition file_len) :
    ∃ T n n_cb K n_large : ℕ, Divided T n n_cb K n_large file_len ∧
      P = { T, n_srcsym_tot := n, n_cb, K_large := K, n_large } := by
  have hK := h.K_large_pos
  obtain ⟨hn, hlow, hhigh⟩ := h.symbols_bounds
  obtain ⟨T, n, n_cb, K, n_large⟩ := P
  obtain ⟨hT, hlen, -, hlarge, htotal, hsmall, hfits⟩ := h
  simp only at hT hlarge htotal hsmall hfits hK hn hlow hhigh
  obtain ⟨T, rfl⟩ := Int.eq_ofNat_of_zero_le (by omega : 0 ≤ T)
  obtain ⟨n, rfl⟩ := Int.eq_ofNat_of_zero_le (by omega : 0 ≤ n)
  obtain ⟨n_cb, rfl⟩ := Int.eq_ofNat_of_zero_le (by omega : 0 ≤ n_cb)
  obtain ⟨K, rfl⟩ := Int.eq_ofNat_of_zero_le (by omega : 0 ≤ K)
  obtain ⟨n_large, rfl⟩ := Int.eq_ofNat_of_zero_le (by omega : 0 ≤ n_large)
  refine ⟨T, n, n_cb, K, n_large, ⟨by omega, ?_, ?_, by omega, by omega, ?_, by omega, by omega,
    ?_⟩, rfl⟩
  · rw [Nat.sub_mul, Nat.one_mul]
    have hlow' : n * T ≤ file_len + T - 1 := by
      zify [show 1 ≤ file_len + T by omega]
      exact hlow
    omega
  · rw [Int.add_mul, Int.one_mul] at hhigh
    have hhigh' : file_len + T - 1 < n * T + T := by
      zify [show 1 ≤ file_len + T by omega]
      exact hhigh
    omega
  · zify [show 1 ≤ K by omega, show n_large ≤ n_cb by omega]
    exact htotal
  · have hlt := hfits.2
    zify
    exact hlt

end CodingParams.Partition

namespace Divided

variable {T n n_cb K n_large file_len : ℕ}

theorem blockSymbols_pos (h : Divided T n n_cb K n_large file_len) {b : ℕ} (hb : b < n_cb) :
    1 ≤ blockSymbols K n_large b := by
  have hK := h.K_pos
  unfold blockSymbols
  split
  · have := h.small (by omega)
    omega
  · omega

theorem symbolsBefore_eq (h : Divided T n n_cb K n_large file_len) (b : ℕ) :
    symbolsBefore K n_large b = K * min b n_large + (K - 1) * (b - n_large) := by
  have hK := h.K_pos
  induction b with
  | zero => simp [symbolsBefore]
  | succ b ih =>
      rw [symbolsBefore, ih, blockSymbols]
      split <;> rename_i hlarge
      · rw [Nat.min_eq_right hlarge, Nat.min_eq_right (by omega), Nat.succ_sub hlarge,
          Nat.mul_succ, Nat.add_assoc]
      · have hnext : b + 1 ≤ n_large := by omega
        rw [Nat.min_eq_left (by omega), Nat.min_eq_left hnext, Nat.sub_eq_zero_of_le hnext,
          Nat.sub_eq_zero_of_le (by omega : b ≤ n_large), Nat.mul_succ, Nat.mul_zero]
        rfl

theorem symbolsBefore_n_cb (h : Divided T n n_cb K n_large file_len) :
    symbolsBefore K n_large n_cb = n := by
  rw [h.symbolsBefore_eq, Nat.min_eq_right h.large_le, h.total]

theorem symbolsBefore_le (h : Divided T n n_cb K n_large file_len) {b : ℕ} (hb : b ≤ n_cb) :
    symbolsBefore K n_large b + (n_cb - b) ≤ n := by
  induction hk : n_cb - b generalizing b with
  | zero =>
      obtain rfl : b = n_cb := by omega
      rw [h.symbolsBefore_n_cb]
      omega
  | succ k ih =>
      have hnext := ih (b := b + 1) (by omega) (by omega)
      have hpos := h.blockSymbols_pos (b := b) (by omega)
      rw [symbolsBefore] at hnext
      omega

/-- Every block starts inside the file. -/
theorem symbolsBefore_lt (h : Divided T n n_cb K n_large file_len) {b : ℕ} (hb : b < n_cb) :
    symbolsBefore K n_large b * T < file_len := by
  have hle := h.symbolsBefore_le (Nat.le_of_lt hb)
  exact Nat.lt_of_le_of_lt (Nat.mul_le_mul_right T (by omega)) h.len_gt

/-- What a block has of the file: all of its bytes, or those up to the end of the file. -/
theorem cbSize_eq (h : Divided T n n_cb K n_large file_len) {S : Segstate}
    (hP : S.P = { T, n_srcsym_tot := n, n_cb, K_large := K, n_large })
    (hlen : S.file_len = file_len) {b : ℕ} (hb : b < n_cb) (hcb : S.out_cb = b) :
    padBytes S < T ∧ cbSize S =
      min (blockSymbols K n_large b * T) (file_len - symbolsBefore K n_large b * T) := by
  have hbytes := h.bytes_lt
  have hprod : sizeMul n T = n * T := sizeMul_of_lt (by omega)
  have hpad : padBytes S = if b + 1 = n_cb then n * T - file_len else 0 := by
    rw [padBytes, hcb, hP, hlen]
    simp only [Int.toNat_natCast, hprod, sizeSub_of_le h.len_le (by omega)]
    by_cases hlast : b + 1 = n_cb
    · rw [if_pos (by omega), if_pos hlast]
    · rw [if_neg (by omega), if_neg hlast]
  have hsyms : (S.P.T * (S.P.K_large - if S.out_cb ≥ S.P.n_large then 1 else 0)).toNat =
      blockSymbols K n_large b * T := by
    have hK := h.K_pos
    have hcast : ((K : ℤ) - if (b : ℤ) ≥ n_large then 1 else 0) =
        (blockSymbols K n_large b : ℕ) := by
      unfold blockSymbols
      split <;> split <;> omega
    rw [hcb, hP]
    simp only [hcast, ← Int.natCast_mul, Int.toNat_natCast, Nat.mul_comm]
  have hbefore := h.symbolsBefore_le (Nat.succ_le_of_lt hb)
  rw [symbolsBefore] at hbefore
  have hblock := Nat.mul_le_mul_right T
    (show symbolsBefore K n_large b + blockSymbols K n_large b ≤ n by omega)
  rw [Nat.add_mul] at hblock
  have hgt := h.len_gt
  have hT := h.T_pos
  have hn : n * T = (n - 1) * T + T := by
    have hpos := h.blockSymbols_pos hb
    rw [← Nat.succ_mul, Nat.succ_eq_add_one, Nat.sub_add_cancel (by omega)]
  rw [cbSize, hsyms, hpad]
  by_cases hlast : b + 1 = n_cb
  · have hall := h.symbolsBefore_n_cb
    rw [← hlast, symbolsBefore] at hall
    have hsum : symbolsBefore K n_large b * T + blockSymbols K n_large b * T = n * T := by
      rw [← Nat.add_mul, hall]
    have hone := Nat.mul_le_mul_right T (h.blockSymbols_pos hb)
    rw [if_pos hlast, sizeSub_of_le (by omega) (by omega)]
    omega
  · have hnext := h.symbolsBefore_lt (show b + 1 < n_cb by omega)
    rw [symbolsBefore, Nat.add_mul] at hnext
    rw [if_neg hlast, sizeSub_of_le (by omega) (by omega)]
    omega

end Divided

/-! ## The data of the blocks -/

/-- The data of the code blocks, decoded one after the other into one buffer with one codec
memory. -/
def decodeBlocks (host : Host M) (sz : ℕ) :
    List Codeblockstate → DataMem M → Except Fault (List (List UInt8))
  | [], _ => .ok []
  | C :: Cs, m => do
    let r ← codeblockstateGetData host C sz m
    let rest ← decodeBlocks host sz Cs r.2
    return r.2.data_out.slice 0 (C.K * C.T) :: rest

/-- The code blocks from number `b` on, whatever they hold. -/
def HoldsBlocks (T K n_large : ℕ) : ℕ → List Codeblockstate → Prop
  | _, [] => True
  | b, C :: Cs =>
    (∃ kept, C.Holds (blockSymbols K n_large b) T kept) ∧ HoldsBlocks T K n_large (b + 1) Cs

theorem blockSymbols_mul_le (T K n_large b : ℕ) : blockSymbols K n_large b * T ≤ T * K := by
  rw [Nat.mul_comm]
  exact Nat.mul_le_mul_left T (Nat.sub_le ..)

/-- Decoding the blocks never fails, and gives as many bytes as they have. -/
theorem Divided.decodeBlocks_ok {T n n_cb K n_large file_len : ℕ}
    (h : Divided T n n_cb K n_large file_len) (host : Host M) {b : ℕ} {Cs : List Codeblockstate}
    (hCs : HoldsBlocks T K n_large b Cs) (hb : b + Cs.length = n_cb) {m : DataMem M}
    (hsize : m.data_out.size = T * K) :
    ∃ blocks, decodeBlocks host (T * K) Cs m = .ok blocks ∧
      blocks.flatten.length = (n - symbolsBefore K n_large b) * T := by
  induction Cs generalizing b m with
  | nil =>
      obtain rfl : b = n_cb := by simpa using hb
      exact ⟨[], rfl, by rw [h.symbolsBefore_n_cb, Nat.sub_self, Nat.zero_mul]; rfl⟩
  | cons C Cs ih =>
      obtain ⟨⟨kept, hC⟩, hCs⟩ := hCs
      rw [List.length_cons] at hb
      have hroom := blockSymbols_mul_le T K n_large b
      obtain ⟨exit, m', hget, hspec⟩ := hC.getData host hroom (m := m)
        (by rw [hsize]; exact hroom)
      obtain ⟨blocks, hblocks, hlen⟩ := ih hCs (by omega) (hspec.size_eq.trans hsize)
      refine ⟨m'.data_out.slice 0 (C.K * C.T) :: blocks, ?_, ?_⟩
      · rw [decodeBlocks, hget, ok_bind, hblocks]
        rfl
      · have hle := h.symbolsBefore_le (b := b + 1) (by omega)
        rw [symbolsBefore] at hle hlen
        rw [List.flatten_cons, List.length_append, hlen, Buffer.length_slice, hC.K_eq, hC.T_eq,
          ← Nat.add_mul]
        congr 1
        omega

/-! ## A segment that is written out -/

/-- A segment of these blocks, prepared for output. -/
structure Segstate.Outputs (S : Segstate) (T n n_cb K n_large file_len : ℕ) : Prop where
  P_eq : S.P = { T, n_srcsym_tot := n, n_cb, K_large := K, n_large }
  file_len_eq : S.file_len = file_len
  mode_eq : S.mode = .writing
  out_fd_ne : S.out_fd ≠ -1
  count : S.cbstates.length = n_cb
  buf_sz : S.out_cb_buf_sz = T * K
  buf_size : S.out_cb_buf.size = T * K

theorem Segstate.Outputs.finish {S : Segstate} {T n n_cb K n_large file_len : ℕ}
    (h : S.Outputs T n n_cb K n_large file_len) : S.finish.Outputs T n n_cb K n_large file_len :=
  ⟨h.P_eq, h.file_len_eq, h.mode_eq, h.out_fd_ne, h.count, h.buf_sz, h.buf_size⟩

theorem Segstate.Outputs.advance {S : Segstate} {T n n_cb K n_large file_len : ℕ}
    (h : S.Outputs T n n_cb K n_large file_len) (offs : ℕ) :
    (S.advance offs).Outputs T n n_cb K n_large file_len :=
  ⟨h.P_eq, h.file_len_eq, h.mode_eq, h.out_fd_ne, h.count, h.buf_sz, h.buf_size⟩

/-- What a segment has still to write: block `b` from an offset on, and the blocks after it,
up to the end of the file. -/
inductive Streams (host : Host M) (T n n_cb K n_large file_len : ℕ) :
    SegMem M → List UInt8 → Prop
  | done {m : SegMem M} (h : m.S.Outputs T n n_cb K n_large file_len) (hcb : m.S.out_cb = n_cb) :
      Streams host T n n_cb K n_large file_len m []
  | block {m : SegMem M} {b : ℕ} {blk : List UInt8} {later : List (List UInt8)}
      (h : m.S.Outputs T n n_cb K n_large file_len) (hcb : m.S.out_cb = b) (hb : b < n_cb)
      (hblk : m.S.out_cb_buf.slice 0 (blockSymbols K n_large b * T) = blk)
      (hrest : HoldsBlocks T K n_large (b + 1) (m.S.cbstates.drop (b + 1)))
      (hlater : decodeBlocks host (T * K) (m.S.cbstates.drop (b + 1))
        { codec_mem := m.codec_mem, data_out := m.S.out_cb_buf } = .ok later)
      (hoffs : m.S.out_cb_buf_offs <
        min (blockSymbols K n_large b * T) (file_len - symbolsBefore K n_large b * T)) :
      Streams host T n n_cb K n_large file_len m
        (((blk ++ later.flatten).take (file_len - symbolsBefore K n_large b * T)).drop
          m.S.out_cb_buf_offs)

section
variable {host : Host M} {T n n_cb K n_large file_len : ℕ} {m : SegMem M}

variable (host) in
/-- The next block is loaded into the buffer. -/
theorem Divided.streams_load (h : Divided T n n_cb K n_large file_len) {b : ℕ}
    (hS : m.S.Outputs T n n_cb K n_large file_len) (hb : b < n_cb) (hcb : m.S.out_cb = b)
    (hoffs : m.S.out_cb_buf_offs = 0) (hCs : HoldsBlocks T K n_large b (m.S.cbstates.drop b))
    {blocks : List (List UInt8)}
    (hblocks : decodeBlocks host (T * K) (m.S.cbstates.drop b)
      { codec_mem := m.codec_mem, data_out := m.S.out_cb_buf } = .ok blocks) :
    ∃ m', loadCbBuf host m = .ok m' ∧ Streams host T n n_cb K n_large file_len m'
      (blocks.flatten.take (file_len - symbolsBefore K n_large b * T)) := by
  have hlt : b < m.S.cbstates.length := by rw [hS.count]; exact hb
  rw [List.drop_eq_getElem_cons hlt] at hCs hblocks
  obtain ⟨⟨kept, hC⟩, hCs⟩ := hCs
  have hroom := blockSymbols_mul_le T K n_large b
  obtain ⟨exit, m', hget, hspec⟩ := hC.getData host hroom
    (m := { codec_mem := m.codec_mem, data_out := m.S.out_cb_buf })
    (by rw [hS.buf_size]; exact hroom)
  rw [decodeBlocks, hget, ok_bind, bind_eq_ok] at hblocks
  obtain ⟨later, hlater, hblocks⟩ := hblocks
  obtain rfl := Except.ok.inj hblocks
  have hstart := h.symbolsBefore_lt hb
  have hpos := Nat.mul_le_mul_right T (h.blockSymbols_pos hb)
  have hT := h.T_pos
  refine ⟨{ S := { m.S with out_cb_buf := m'.data_out }, codec_mem := m'.codec_mem }, ?_, ?_⟩
  · rw [loadCbBuf, check_bind (by omega), hcb, Int.toNat_natCast, List.getElem?_eq_getElem hlt,
      orElse_some, ok_bind, hS.buf_sz, hget]
    rfl
  · have hS' : Segstate.Outputs { m.S with out_cb_buf := m'.data_out } T n n_cb K n_large
        file_len :=
      ⟨hS.P_eq, hS.file_len_eq, hS.mode_eq, hS.out_fd_ne, hS.count, hS.buf_sz,
        hspec.size_eq.trans hS.buf_size⟩
    have hstream : Streams host T n n_cb K n_large file_len
        { S := { m.S with out_cb_buf := m'.data_out }, codec_mem := m'.codec_mem } _ :=
      .block hS' hcb hb rfl hCs hlater (by simp only [hoffs]; omega)
    have hall : ∀ xs : List UInt8, xs.drop m.S.out_cb_buf_offs = xs := fun xs => by
      rw [hoffs, List.drop_zero]
    rw [hall] at hstream
    rw [List.flatten_cons, hC.K_eq, hC.T_eq]
    exact hstream

/-- A piece of the buffer that lies in the block and in the file is the next piece of the data. -/
theorem slice_append_rest (buf : Buffer UInt8) {B L : ℕ} (offs n : ℕ) (ys : List UInt8)
    (hn : offs + n ≤ min B L) :
    ((buf.slice 0 B ++ ys).take L).drop offs =
      buf.slice offs n ++ ((buf.slice 0 B ++ ys).take L).drop (offs + n) := by
  have hpiece : (((buf.slice 0 B ++ ys).take L).drop offs).take n = buf.slice offs n := by
    apply List.ext_getElem
    · simp only [List.length_take, List.length_drop, List.length_append, Buffer.length_slice]
      omega
    · intro i hi hi'
      have hin : i < n := by simpa using hi'
      rw [List.getElem_take, List.getElem_drop, List.getElem_take,
        List.getElem_append_left (by rw [Buffer.length_slice]; omega), Buffer.getElem_slice,
        Buffer.getElem_slice, Nat.zero_add]
  rw [← hpiece, ← List.drop_drop, List.take_append_drop]

variable (host) in
/-- One call in the middle of a block. -/
theorem Divided.writeMore_eq (h : Divided T n n_cb K n_large file_len)
    (hS : m.S.Outputs T n n_cb K n_large file_len) {b : ℕ} (hcb : m.S.out_cb = b) (hb : b < n_cb)
    {size : ℕ} (hsize : size =
      min (blockSymbols K n_large b * T) (file_len - symbolsBefore K n_large b * T))
    (hoffs : m.S.out_cb_buf_offs < size) (k : ℕ) :
    segstateWriteMore host m (some k) =
      let n_write := min k (size - m.S.out_cb_buf_offs)
      let written := m.S.out_cb_buf.slice m.S.out_cb_buf_offs n_write
      if m.S.out_cb_buf_offs + n_write = size then
        if b + 1 = n_cb then .ok { more := false, written, mem := { m with S := m.S.finish } }
        else loadCbBuf host { m with S := m.S.finish } >>= fun m =>
          .ok { more := true, written, mem := m }
      else .ok {
        more := true, written
        mem := { m with S := m.S.advance (m.S.out_cb_buf_offs + n_write) } } := by
  obtain ⟨hpad, hcbSize⟩ := h.cbSize_eq hS.P_eq hS.file_len_eq hb hcb
  rw [← hsize] at hcbSize
  have hroom := blockSymbols_mul_le T K n_large b
  have hread : m.S.out_cb_buf.read? m.S.out_cb_buf_offs (min k (size - m.S.out_cb_buf_offs)) =
      some (m.S.out_cb_buf.slice m.S.out_cb_buf_offs (min k (size - m.S.out_cb_buf_offs))) :=
    Buffer.read?_of_le (by rw [hS.buf_size]; omega)
  have hne : m.S.out_cb ≠ m.S.P.n_cb := by
    rw [hcb, hS.P_eq]
    simp only
    omega
  have hlast : m.S.out_cb + 1 = m.S.P.n_cb ↔ b + 1 = n_cb := by
    rw [hcb, hS.P_eq]
    simp only
    omega
  rw [segstateWriteMore, check_bind hS.out_fd_ne, check_bind hS.mode_eq, if_neg hne,
    check_bind (fun _ => by rw [hS.P_eq]; exact Int.ofNat_lt.mpr hpad),
    check_bind (by rw [hcbSize]; exact hoffs)]
  simp only [hcbSize, hread, orElse_some, ok_bind]
  by_cases hend : m.S.out_cb_buf_offs + min k (size - m.S.out_cb_buf_offs) = size
  · rw [if_pos hend, if_pos hend]
    by_cases hfin : b + 1 = n_cb
    · rw [if_pos (hlast.mpr hfin), if_pos hfin]
      rfl
    · rw [if_neg (hlast.not.mpr hfin), if_neg hfin]
      rfl
  · rw [if_neg hend, if_neg hend]
    rfl

/-- The data from a block on reaches the end of the file. -/
theorem Divided.length_streams (h : Divided T n n_cb K n_large file_len)
    (hS : m.S.Outputs T n n_cb K n_large file_len) {b : ℕ} (hb : b < n_cb)
    {later : List (List UInt8)}
    (hrest : HoldsBlocks T K n_large (b + 1) (m.S.cbstates.drop (b + 1)))
    (hlater : decodeBlocks host (T * K) (m.S.cbstates.drop (b + 1))
      { codec_mem := m.codec_mem, data_out := m.S.out_cb_buf } = .ok later) :
    file_len - symbolsBefore K n_large b * T ≤
      blockSymbols K n_large b * T + later.flatten.length := by
  obtain ⟨blocks, hblocks, hlen⟩ := h.decodeBlocks_ok host hrest
    (by rw [List.length_drop, hS.count]; omega)
    (m := { codec_mem := m.codec_mem, data_out := m.S.out_cb_buf }) hS.buf_size
  obtain rfl := Except.ok.inj (hlater.symm.trans hblocks)
  have hle := h.symbolsBefore_le (b := b + 1) (by omega)
  have hend := h.len_le
  rw [symbolsBefore] at hle hlen
  have hsum : n * T = symbolsBefore K n_large b * T +
      (blockSymbols K n_large b * T + later.flatten.length) := by
    rw [hlen, ← Nat.add_mul, ← Nat.add_mul]
    congr 1
    omega
  omega

/-- One call: it takes the next bytes off the data, at most as many as `write` accepts and none
only where it must, and returns false when none are left. -/
theorem Divided.streams_writeMore (h : Divided T n n_cb K n_large file_len) {data : List UInt8}
    (hs : Streams host T n n_cb K n_large file_len m data) (k : ℕ) :
    ∃ w rest, segstateWriteMore host m (some k) = .ok w ∧ data = w.written ++ rest ∧
      Streams host T n n_cb K n_large file_len w.mem rest ∧ (w.more = false ↔ rest = []) ∧
      w.written.length ≤ k ∧ (w.written = [] ↔ k = 0 ∨ data = []) := by
  cases hs with
  | done hS hcb =>
      refine ⟨{ more := false, written := [], mem := m }, [], ?_, rfl, .done hS hcb, by simp,
        by simp⟩
      rw [segstateWriteMore, check_bind hS.out_fd_ne, check_bind hS.mode_eq,
        if_pos (by rw [hcb, hS.P_eq])]
      rfl
  | @block b blk later hS hcb hb hblk hrest hlater hoffs =>
      subst hblk
      obtain ⟨size, hsize⟩ : ∃ size, size =
        min (blockSymbols K n_large b * T) (file_len - symbolsBefore K n_large b * T) := ⟨_, rfl⟩
      rw [← hsize] at hoffs
      obtain ⟨n_write, hn⟩ : ∃ n_write, n_write = min k (size - m.S.out_cb_buf_offs) := ⟨_, rfl⟩
      have hpiece := slice_append_rest m.S.out_cb_buf m.S.out_cb_buf_offs n_write later.flatten
        (B := blockSymbols K n_large b * T) (L := file_len - symbolsBefore K n_large b * T)
        (by omega)
      have hwrite := h.writeMore_eq host hS hcb hb hsize hoffs k
      simp only [← hn] at hwrite
      have hlen := h.length_streams hS hb hrest hlater
      have hgoes : (m.S.out_cb_buf.slice m.S.out_cb_buf_offs n_write).length ≤ k ∧
          (m.S.out_cb_buf.slice m.S.out_cb_buf_offs n_write = [] ↔ k = 0 ∨
            ((m.S.out_cb_buf.slice 0 (blockSymbols K n_large b * T) ++ later.flatten).take
              (file_len - symbolsBefore K n_large b * T)).drop m.S.out_cb_buf_offs = []) := by
        rw [← List.length_eq_zero_iff, Buffer.length_slice, List.drop_eq_nil_iff,
          List.length_take, List.length_append, Buffer.length_slice]
        omega
      by_cases hend : m.S.out_cb_buf_offs + n_write = size
      · rw [if_pos hend] at hwrite
        by_cases hfin : b + 1 = n_cb
        · -- the last block: the file ends here
          have hall := h.symbolsBefore_n_cb
          have hfile := h.len_le
          rw [← hfin, symbolsBefore] at hall
          rw [← hall, Nat.add_mul] at hfile
          rw [if_pos hfin] at hwrite
          have hnil : ((m.S.out_cb_buf.slice 0 (blockSymbols K n_large b * T) ++
              later.flatten).take (file_len - symbolsBefore K n_large b * T)).drop
                (m.S.out_cb_buf_offs + n_write) = [] := by
            rw [List.drop_eq_nil_iff, List.length_take]
            omega
          rw [hnil] at hpiece
          refine ⟨_, [], hwrite, hpiece, .done hS.finish ?_, by simp, hgoes⟩
          simp only [Segstate.finish, hcb]
          omega
        · -- the next block comes into the buffer
          have hnext : b + 1 < n_cb := by omega
          have hstart := h.symbolsBefore_lt hnext
          rw [symbolsBefore, Nat.add_mul] at hstart
          obtain ⟨m', hload, hstream⟩ := h.streams_load host
            (m := { m with S := m.S.finish }) hS.finish hnext
            (by simp only [Segstate.finish, hcb]; omega) rfl hrest hlater
          rw [if_neg hfin, hload, ok_bind] at hwrite
          have hdrop : ((m.S.out_cb_buf.slice 0 (blockSymbols K n_large b * T) ++
              later.flatten).take (file_len - symbolsBefore K n_large b * T)).drop
                (m.S.out_cb_buf_offs + n_write) =
              later.flatten.take (file_len - symbolsBefore K n_large (b + 1) * T) := by
            have hat : m.S.out_cb_buf_offs + n_write = blockSymbols K n_large b * T := by omega
            rw [hat, List.drop_take, List.drop_left' (Buffer.length_slice ..), symbolsBefore,
              Nat.add_mul, Nat.sub_sub]
          rw [hdrop] at hpiece
          refine ⟨_, _, hwrite, hpiece, hstream, iff_of_false (by simp) ?_, hgoes⟩
          intro hnil
          have hzero := congrArg List.length hnil
          rw [List.length_take, symbolsBefore, Nat.add_mul, List.length_nil] at hzero
          omega
      · rw [if_neg hend] at hwrite
        refine ⟨_, _, hwrite, hpiece, ?_, iff_of_false (by simp) ?_, hgoes⟩
        · have hlt : m.S.out_cb_buf_offs + n_write < size := by omega
          rw [hsize] at hlt
          exact .block (m := { m with S := m.S.advance _ }) (hS.advance _) hcb hb rfl hrest hlater
            hlt
        · intro hnil
          rw [List.drop_eq_nil_iff, List.length_take, List.length_append,
            Buffer.length_slice] at hnil
          omega

end

/-! ## All calls -/

/-- `segstate_write_more` calls, also after one that returned false: what each returns, and the
bytes that `write` accepted in it. -/
def segstateWriteCalls (host : Host M) :
    SegMem M → List ℕ → Except Fault (List (Bool × List UInt8))
  | _, [] => .ok []
  | m, w :: ws => do
    let r ← segstateWriteMore host m (some w)
    let rest ← segstateWriteCalls host r.mem ws
    return (r.more, r.written) :: rest

/-- The bytes accepted by `write` in all of these calls. -/
def acceptedBytes (calls : List (Bool × List UInt8)) : List UInt8 := calls.flatMap Prod.snd

@[simp] theorem acceptedBytes_cons (call : Bool × List UInt8) (calls : List (Bool × List UInt8)) :
    acceptedBytes (call :: calls) = call.2 ++ acceptedBytes calls := List.flatMap_cons

theorem Divided.streams_writeCalls {host : Host M} {T n n_cb K n_large file_len : ℕ}
    (h : Divided T n n_cb K n_large file_len) {m : SegMem M} {data : List UInt8}
    (hs : Streams host T n n_cb K n_large file_len m data) (ws : List ℕ) :
    ∃ calls, segstateWriteCalls host m ws = .ok calls ∧ calls.length = ws.length ∧
      acceptedBytes calls <+: data ∧
      (∀ i (hi : i < calls.length),
        calls[i].1 = false ↔ (acceptedBytes (calls.take (i + 1))).length = data.length) ∧
      ∀ i (hi : i < calls.length) (hw : i < ws.length), calls[i].2.length ≤ ws[i] ∧
        (calls[i].2 = [] ↔ ws[i] = 0 ∨ (acceptedBytes (calls.take i)).length = data.length) := by
  induction ws generalizing m data with
  | nil =>
      exact ⟨[], rfl, rfl, List.nil_prefix, fun i hi => absurd hi (Nat.not_lt_zero i),
        fun i hi => absurd hi (Nat.not_lt_zero i)⟩
  | cons w ws ih =>
      obtain ⟨r, rest, hwrite, hdata, hnext, hmore, hle, hnone⟩ := h.streams_writeMore hs w
      obtain ⟨calls, hcalls, hcount, hprefix, hret, hgoes⟩ := ih hnext
      have hlen : data.length = r.written.length + rest.length := by
        rw [hdata, List.length_append]
      refine ⟨(r.more, r.written) :: calls, ?_, by simp [hcount], ?_, fun i hi => ?_,
        fun i hi hw => ?_⟩
      · rw [segstateWriteCalls, hwrite, ok_bind, hcalls]
        rfl
      · rw [acceptedBytes_cons, hdata, List.prefix_append_right_inj]
        exact hprefix
      · rw [List.take_succ_cons, acceptedBytes_cons, List.length_append, hlen,
          Nat.add_left_cancel_iff]
        cases i with
        | zero =>
            rw [List.getElem_cons_zero, hmore, List.take_zero, ← List.length_eq_zero_iff]
            exact eq_comm
        | succ i =>
            rw [List.getElem_cons_succ]
            exact hret i (by simpa using hi)
      · cases i with
        | zero =>
            rw [List.getElem_cons_zero, List.getElem_cons_zero, List.take_zero, hnone,
              ← List.length_eq_zero_iff]
            exact ⟨hle, or_congr_right eq_comm⟩
        | succ i =>
            rw [List.getElem_cons_succ, List.getElem_cons_succ, List.take_succ_cons,
              acceptedBytes_cons, List.length_append, hlen, Nat.add_left_cancel_iff]
            exact hgoes i (by simpa using hi) (by simpa using hw)

/-- The code blocks of a segment are those of its parameters. -/
structure Segstate.HasBlocks (S : Segstate) : Prop where
  count : (S.cbstates.length : ℤ) = S.P.n_cb
  blocks : HoldsBlocks S.P.T.toNat S.P.K_large.toNat S.P.n_large.toNat 0 S.cbstates

/-- What `segstate_prepare_output` decodes into. -/
def freshBlock (host : Host M) (P : CodingParams) : Buffer UInt8 :=
  { size := (P.T * P.K_large).toNat, cell := host.freshByte }

/-- However the descriptor cuts the output, the bytes it accepts are a prefix of the data of
the blocks up to the length of the file, and a call returns false exactly when this length is
reached. A call writes nothing only where `write` accepts nothing or nothing is left. No assertion
fails. -/
theorem resumable_output (host : Host M) {S : Segstate} (hP : S.P.Partition S.file_len)
    (hblocks : S.HasBlocks) (hclosed : S.out_fd = -1) {fd : ℤ} (hfd : fd ≠ -1)
    (codec_mem : RqMemBlocks M) :
    ∃ m blocks, segstatePrepareOutput host S fd codec_mem = .ok m ∧
      decodeBlocks host (S.P.T * S.P.K_large).toNat S.cbstates
        { codec_mem, data_out := freshBlock host S.P } = .ok blocks ∧
      S.file_len ≤ blocks.flatten.length ∧
      ∀ ws, ∃ calls, segstateWriteCalls host m ws = .ok calls ∧ calls.length = ws.length ∧
        acceptedBytes calls <+: blocks.flatten.take S.file_len ∧
        (∀ i (hi : i < calls.length),
          calls[i].1 = false ↔ (acceptedBytes (calls.take (i + 1))).length = S.file_len) ∧
        ∀ i (hi : i < calls.length) (hw : i < ws.length), calls[i].2.length ≤ ws[i] ∧
          (calls[i].2 = [] ↔
            ws[i] = 0 ∨ (acceptedBytes (calls.take i)).length = S.file_len) := by
  obtain ⟨T, n, n_cb, K, n_large, h, hparams⟩ := hP.exists_divided
  obtain ⟨hcount, hCs⟩ := hblocks
  rw [hparams] at hcount hCs ⊢
  simp only [Int.toNat_natCast, ← Int.natCast_mul] at hcount hCs ⊢
  have hpos : 0 < n_cb := Nat.lt_of_lt_of_le h.large_pos h.large_le
  have hfresh : freshBlock host { T, n_srcsym_tot := n, n_cb, K_large := K, n_large } =
      { size := T * K, cell := host.freshByte } := by
    simp only [freshBlock, ← Int.natCast_mul, Int.toNat_natCast]
  rw [hfresh]
  obtain ⟨blocks, hdec, hlen⟩ := h.decodeBlocks_ok host hCs (by omega)
    (m := { codec_mem, data_out := { size := T * K, cell := host.freshByte } }) rfl
  obtain ⟨m, hload, hstream⟩ := h.streams_load host (b := 0) (m := {
    S := { S with
      mode := .writing
      out_fd := fd
      out_cb := 0
      out_cb_buf_sz := T * K
      out_cb_buf := { size := T * K, cell := host.freshByte }
      out_cb_buf_offs := 0 }
    codec_mem }) ⟨hparams, rfl, rfl, hfd, by simpa using hcount, rfl, rfl⟩ hpos rfl rfl hCs hdec
  simp only [symbolsBefore, Nat.zero_mul, Nat.sub_zero] at hlen hstream
  have hfile := h.len_le
  have hdata : (blocks.flatten.take S.file_len).length = S.file_len := by
    rw [List.length_take, hlen]
    omega
  refine ⟨m, blocks, ?_, hdec, by omega, fun ws => ?_⟩
  · have hsz : (S.P.T * S.P.K_large).toNat = T * K := by
      rw [hparams]
      simp only [← Int.natCast_mul, Int.toNat_natCast]
    rw [segstatePrepareOutput, check_bind hclosed]
    simp only [hsz]
    exact hload
  · obtain ⟨calls, hcalls, hcount, hprefix, hret, hgoes⟩ := h.streams_writeCalls hstream ws
    rw [hdata] at hret hgoes
    exact ⟨calls, hcalls, hcount, hprefix, hret, hgoes⟩

/-- Five bytes in symbols of two bytes: a block of two symbols and one of one symbol. -/
def twoBlocks : Segstate :=
  { Segstate.zero with
    file_len := 5
    P := { T := 2, n_srcsym_tot := 3, n_cb := 2, K_large := 2, n_large := 1 }
    cbstates := [codeblockstateInit refusingHost 2 2, codeblockstateInit refusingHost 1 2]
    out_fd := -1 }

/-- Nothing was received; the second write ends with the first block. -/
theorem resumable_output_two :
    ∃ m calls, segstatePrepareOutput refusingHost twoBlocks 3 (.zero refusingHost) = .ok m ∧
      segstateWriteCalls refusingHost m [3, 1, 0, 9] = .ok calls ∧
      acceptedBytes calls <+: [0, 0, 0, 0, 0] := by
  have hP : twoBlocks.P.Partition twoBlocks.file_len :=
    ⟨by decide, by decide, by decide, by decide, by decide, by decide, by decide⟩
  have hblocks : twoBlocks.HasBlocks :=
    ⟨by decide, ⟨[], holds_codeblockstateInit refusingHost 2 2⟩,
      ⟨[], holds_codeblockstateInit refusingHost 1 2⟩, trivial⟩
  obtain ⟨m, blocks, hprep, hdec, -, hall⟩ :=
    resumable_output refusingHost hP hblocks rfl (by decide : (3 : ℤ) ≠ -1) (.zero refusingHost)
  obtain ⟨calls, hcalls, -, hprefix, -⟩ := hall [3, 1, 0, 9]
  obtain rfl : [[0, 0, 0, 0], [0, 0]] = blocks := Except.ok.inj hdec
  exact ⟨m, calls, hprep, hcalls, hprefix⟩

end RqRoute
