import RqRoute.Verification.Codeblockstate.Reconstruct
import RqRoute.Verification.Segstate.Receive

/-! # Writing a segment out

A segment of one code block is decoded when its output is prepared, and then written in
as many pieces as the descriptor takes. -/

namespace RqRoute

open Checked Memory Dedup

variable {M : Type}

/-! ## Preparing the output -/

/-- What `segstate_prepare_output` decodes into. -/
def freshOutput (host : Host M) (file_len : ℕ) : Buffer UInt8 :=
  { size := segSymbols file_len * 1024, cell := host.freshByte }

/-- A segment that is being written: its buffer, and how much of it is written already. -/
structure Segstate.Writes (S : Segstate) (file_nbr : ℤ) (file_len offs : ℕ) : Prop where
  small : SmallFile file_len
  file_nbr_eq : S.file_nbr = file_nbr
  file_len_eq : S.file_len = file_len
  P_eq : S.P = oneBlock (segSymbols file_len)
  mode_eq : S.mode = .writing
  out_cb_eq : S.out_cb = 0
  buf_size : S.out_cb_buf.size = segSymbols file_len * 1024
  offs_eq : S.out_cb_buf_offs = offs
  offs_lt : offs < file_len

/-- Preparing the output of a received segment never fails; the buffer is what
`codeblockstate_get_data` leaves in it. -/
theorem Segstate.Receives.prepareOutput {S : Segstate} {file_nbr : ℤ} {file_len : ℕ}
    {kept : List (ℤ × List UInt8)} (h : S.Receives file_nbr file_len kept)
    (hfd : S.out_fd = -1) (host : Host M) (fd : ℤ) (codec_mem : RqMemBlocks M) :
    ∃ C exit m' S', S.cbstates = [C] ∧
      C.Holds (segSymbols file_len) 1024 kept ∧
      codeblockstateGetData host C (segSymbols file_len * 1024)
        { codec_mem, data_out := freshOutput host file_len } = .ok (exit, m') ∧
      DataSpec host C (segSymbols file_len) 1024 kept (segSymbols file_len * 1024)
        { codec_mem, data_out := freshOutput host file_len } exit m' ∧
      segstatePrepareOutput host S fd codec_mem = .ok { S := S', codec_mem := m'.codec_mem } ∧
      S'.Writes file_nbr file_len 0 ∧ S'.out_fd = fd ∧ S'.out_cb_buf = m'.data_out := by
  obtain ⟨C, hC, hholds⟩ := h.block
  obtain ⟨exit, m', hget, hspec⟩ := hholds.getData host (le_refl (segSymbols file_len * 1024))
    (m := { codec_mem, data_out := freshOutput host file_len }) le_rfl
  have hsz : (S.P.T * S.P.K_large).toNat = segSymbols file_len * 1024 := by
    rw [h.P_eq]
    simp only [oneBlock]
    omega
  refine ⟨C, exit, m', { S with
    mode := .writing
    out_fd := fd
    out_cb := 0
    out_cb_buf_sz := segSymbols file_len * 1024
    out_cb_buf := m'.data_out
    out_cb_buf_offs := 0 }, hC, hholds, hget, hspec, ?_, ?_, rfl, rfl⟩
  · rw [segstatePrepareOutput, check_bind hfd, hsz, loadCbBuf, check_bind (by simp)]
    simp only [hC, Int.toNat_zero, List.getElem?_cons_zero, orElse_some, ok_bind]
    change (codeblockstateGetData host C (segSymbols file_len * 1024)
      { codec_mem, data_out := freshOutput host file_len } >>= _) = _
    rw [hget, ok_bind]
    rfl
  · exact ⟨h.small, h.file_nbr_eq, h.file_len_eq, h.P_eq, rfl, rfl, hspec.size_eq, rfl,
      h.small.1⟩

/-! ## One write -/

/-- The padding of the last symbol is less than a symbol. -/
theorem padBytes_oneBlock {S : Segstate} {file_len : ℕ} (hsmall : SmallFile file_len)
    (hP : S.P = oneBlock (segSymbols file_len)) (hlen : S.file_len = file_len)
    (hcb : S.out_cb = 0) :
    padBytes S = segSymbols file_len * 1024 - file_len ∧ padBytes S < 1024 := by
  obtain ⟨-, h₁, h₂, h₃, h₄⟩ := hsmall.symbols
  have hpad : padBytes S = segSymbols file_len * 1024 - file_len := by
    unfold padBytes
    rw [if_pos (by rw [hP, hcb]; rfl), hP, hlen]
    have hprod := hsmall.bytes_lt
    change sizeSub (sizeMul (segSymbols file_len) 1024) file_len = _
    rw [sizeMul_of_lt hprod, sizeSub_of_le h₄ hprod]
  omega

/-- The data of the block is the file. -/
theorem cbSize_oneBlock {S : Segstate} {file_len : ℕ} (hsmall : SmallFile file_len)
    (hP : S.P = oneBlock (segSymbols file_len)) (hlen : S.file_len = file_len)
    (hcb : S.out_cb = 0) : cbSize S = file_len := by
  obtain ⟨hpad, -⟩ := padBytes_oneBlock hsmall hP hlen hcb
  obtain ⟨-, h₁, h₂, h₃, h₄⟩ := hsmall.symbols
  have hsize : (S.P.T * (S.P.K_large - if S.out_cb ≥ S.P.n_large then 1 else 0)).toNat =
      segSymbols file_len * 1024 := by
    rw [hP, hcb]
    simp only [oneBlock]
    omega
  have hprod := hsmall.bytes_lt
  rw [cbSize, hsize, hpad, sizeSub_of_le (Nat.sub_le _ _) hprod, Nat.sub_sub_self h₄]

/-- The segment after `n` more bytes. -/
def Segstate.advance (S : Segstate) (offs : ℕ) : Segstate := { S with out_cb_buf_offs := offs }

/-- The segment after its last byte. -/
def Segstate.finish (S : Segstate) : Segstate :=
  { S with out_cb_buf_offs := 0, out_cb := S.out_cb + 1 }

/-- `write` fails: the segment is given up. -/
theorem Segstate.Writes.writeMore_error {S : Segstate} {file_nbr : ℤ} {file_len offs : ℕ}
    (h : S.Writes file_nbr file_len offs) (hfd : S.out_fd ≠ -1) (host : Host M)
    (codec_mem : RqMemBlocks M) :
    segstateWriteMore host { S, codec_mem } none =
      .ok { more := false, written := [], mem := { S, codec_mem } } := by
  have hpad := (padBytes_oneBlock h.small h.P_eq h.file_len_eq h.out_cb_eq).2
  have hcb := cbSize_oneBlock h.small h.P_eq h.file_len_eq h.out_cb_eq
  rw [segstateWriteMore]
  simp only
  rw [check_bind hfd, check_bind h.mode_eq, if_neg (by simp [h.out_cb_eq, h.P_eq, oneBlock]),
    check_bind (fun _ => by rw [h.P_eq]; simp only [oneBlock]; omega),
    check_bind (by rw [hcb, h.offs_eq]; exact h.offs_lt)]
  rfl

/-- `write` accepts at most `k` bytes: the next ones of the buffer go out, and the call
returns false exactly when those were the last of the file. -/
theorem Segstate.Writes.writeMore_some {S : Segstate} {file_nbr : ℤ} {file_len offs : ℕ}
    (h : S.Writes file_nbr file_len offs) (hfd : S.out_fd ≠ -1) (host : Host M)
    (codec_mem : RqMemBlocks M) (k : ℕ) :
    segstateWriteMore host { S, codec_mem } (some k) = .ok {
      more := decide (offs + min k (file_len - offs) ≠ file_len)
      written := S.out_cb_buf.slice offs (min k (file_len - offs))
      mem := {
        S := if offs + min k (file_len - offs) = file_len then S.finish
          else S.advance (offs + min k (file_len - offs))
        codec_mem } } := by
  have hpad := (padBytes_oneBlock h.small h.P_eq h.file_len_eq h.out_cb_eq).2
  have hcb := cbSize_oneBlock h.small h.P_eq h.file_len_eq h.out_cb_eq
  have hlt := h.offs_lt
  have hread : S.out_cb_buf.read? offs (min k (file_len - offs)) =
      some (S.out_cb_buf.slice offs (min k (file_len - offs))) := by
    have hle := h.small.symbols.2.2.2.2
    exact Buffer.read?_of_le (by rw [h.buf_size]; omega)
  rw [segstateWriteMore]
  simp only
  rw [check_bind hfd, check_bind h.mode_eq, if_neg (by simp [h.out_cb_eq, h.P_eq, oneBlock]),
    check_bind (fun _ => by rw [h.P_eq]; simp only [oneBlock]; omega),
    check_bind (by rw [hcb, h.offs_eq]; exact hlt), hcb, h.offs_eq, hread, orElse_some, ok_bind]
  by_cases hend : offs + min k (file_len - offs) = file_len
  · rw [if_pos hend, if_pos (by rw [h.out_cb_eq, h.P_eq]; rfl)]
    simp [hend, Segstate.finish]
  · rw [if_neg hend]
    simp [hend, Segstate.advance]

theorem Segstate.Writes.advance {S : Segstate} {file_nbr : ℤ} {file_len offs offs' : ℕ}
    (h : S.Writes file_nbr file_len offs) (hlt : offs' < file_len) :
    (S.advance offs').Writes file_nbr file_len offs' :=
  ⟨h.small, h.file_nbr_eq, h.file_len_eq, h.P_eq, h.mode_eq, h.out_cb_eq, h.buf_size, rfl, hlt⟩

/-- A write always returns; the segment stays writable while there is more to write. -/
theorem Segstate.Writes.writeMore {S : Segstate} {file_nbr : ℤ} {file_len offs : ℕ}
    (h : S.Writes file_nbr file_len offs) (hfd : S.out_fd ≠ -1) (host : Host M)
    (codec_mem : RqMemBlocks M) (taken : Option ℕ) :
    ∃ w, segstateWriteMore host { S, codec_mem } taken = .ok w ∧
      w.mem.codec_mem = codec_mem ∧ w.mem.S.file_nbr = file_nbr ∧ w.mem.S.out_fd = S.out_fd ∧
      (w.more = true → ∃ offs', w.mem.S.Writes file_nbr file_len offs') := by
  cases taken with
  | none => exact ⟨_, h.writeMore_error hfd host codec_mem, rfl, h.file_nbr_eq, rfl, by simp⟩
  | some k =>
      refine ⟨_, h.writeMore_some hfd host codec_mem k, rfl, ?_, ?_, ?_⟩
      · simp only
        split <;> exact h.file_nbr_eq
      · simp only
        split <;> rfl
      · have hlt := h.offs_lt
        intro hmore
        have hne : offs + min k (file_len - offs) ≠ file_len := by simpa using hmore
        rw [if_neg hne]
        exact ⟨_, h.advance (by omega)⟩

/-! ## Writing on to the end -/

/-- Repeated `segstate_write_more` calls on a descriptor that takes at most `ws[i]` bytes
of request `i`: the bytes written, and whether a call returned false. -/
def segstateWriteAll (host : Host M) : SegMem M → List ℕ → Except Fault (List UInt8 × Bool)
  | _, [] => .ok ([], false)
  | m, w :: ws => do
    let r ← segstateWriteMore host m (some w)
    if r.more then
      let rest ← segstateWriteAll host r.mem ws
      return (r.written ++ rest.1, rest.2)
    else return (r.written, true)

/-- The bytes go out in order and up to the length of the file, however the writes cut
them, and a call returns false exactly when the file is complete. -/
theorem Segstate.Writes.writeAll {S : Segstate} {file_nbr : ℤ} {file_len offs : ℕ}
    (h : S.Writes file_nbr file_len offs) (hfd : S.out_fd ≠ -1) (host : Host M)
    (codec_mem : RqMemBlocks M) (ws : List ℕ) :
    segstateWriteAll host { S, codec_mem } ws =
      .ok (S.out_cb_buf.slice offs (min ws.sum (file_len - offs)),
        decide (file_len - offs ≤ ws.sum)) := by
  induction ws generalizing S offs with
  | nil =>
      have hlt := h.offs_lt
      simp [segstateWriteAll]
      omega
  | cons w ws ih =>
      have hlt := h.offs_lt
      rw [segstateWriteAll, h.writeMore_some hfd, ok_bind, List.sum_cons]
      by_cases hend : offs + min w (file_len - offs) = file_len
      · have hmin : min (w + ws.sum) (file_len - offs) = min w (file_len - offs) := by omega
        have hdone : file_len - offs ≤ w + ws.sum := by omega
        rw [hmin, decide_eq_true hdone, decide_eq_false (by simpa using hend)]
        rfl
      · have hrest := ih (h.advance (show offs + min w (file_len - offs) < file_len by omega)) hfd
        have hsplit : min (w + ws.sum) (file_len - offs) =
            min w (file_len - offs) +
              min ws.sum (file_len - (offs + min w (file_len - offs))) := by
          omega
        have hdone : (file_len - (offs + min w (file_len - offs)) ≤ ws.sum) ↔
            file_len - offs ≤ w + ws.sum := by
          omega
        rw [decide_eq_true hend, if_pos rfl, if_neg hend, hrest, ok_bind, hsplit,
          Buffer.slice_append, decide_eq_decide.mpr hdone]
        rfl

/-- The writes from the start on: together they write what they take of the file. -/
theorem Segstate.Writes.writeAll_start {S : Segstate} {file_nbr : ℤ} {file_len : ℕ}
    (h : S.Writes file_nbr file_len 0) (hfd : S.out_fd ≠ -1) (host : Host M)
    (codec_mem : RqMemBlocks M) (ws : List ℕ) :
    segstateWriteAll host { S, codec_mem } ws =
      .ok ((S.out_cb_buf.slice 0 file_len).take ws.sum, decide (file_len ≤ ws.sum)) := by
  have htake : S.out_cb_buf.slice 0 (min ws.sum file_len) =
      (S.out_cb_buf.slice 0 file_len).take ws.sum := by
    rcases Nat.le_total ws.sum file_len with hw | hw
    · rw [min_eq_left hw, Buffer.take_slice _ _ hw]
    · rw [min_eq_right hw, List.take_of_length_le (by simpa using hw)]
  rw [h.writeAll hfd, Nat.sub_zero, htake]

end RqRoute
