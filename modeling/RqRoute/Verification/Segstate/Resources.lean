import RqRoute.Model.Resources
import RqRoute.Verification.Codeblockstate.Failure
import RqRoute.Verification.Segstate.Output

/-! # What a segment holds

The blocks of memory of a segment and of the codec, and what the functions of a segment do to
them. -/

namespace RqRoute

open Checked Ownership

variable {M : Type}

/-! ## The codec memory -/

/-- What was allocated for a block. -/
def RqMemBlocks.blockSize (B : RqMemBlocks M) : CodecBlock → ℕ
  | .interWorkMem => B.interWorkMem.allocated
  | .interProgMem => B.interProgMem.allocated
  | .interSymMem => B.interSymMem.allocated
  | .outWorkMem => B.outWorkMem.allocated
  | .outProgMem => B.outProgMem.allocated

/-- The holders `P`, with the blocks of `B` in place of those of the codec memory. -/
def withCodec (P : Owner → Prop) (B : RqMemBlocks M) : Owner → Prop
  | .codec block => B.blockSize block ≠ 0
  | x => P x

/-- A block that is replaced is released first. -/
theorem MemBlock.settles_alloc {C : Type} (b : MemBlock C) {block : CodecBlock} (nSize : ℕ)
    (fresh : C) {P : Owner → Prop} (h : P (.codec block) ↔ b.allocated ≠ 0) :
    Settles P (b.allocUses block nSize) fun x =>
      if x = .codec block then (b.alloc nSize fresh).allocated ≠ 0 else P x := by
  unfold MemBlock.allocUses MemBlock.alloc
  by_cases hgrow : nSize > b.nSize
  · have hne : nSize ≠ 0 := by omega
    simp only [if_pos hgrow]
    by_cases hheld : b.allocated ≠ 0
    · rw [if_pos hheld]
      refine ((Settles.release (h.mpr hheld)).append (.acquire (by simp))).congr fun x => ?_
      by_cases hx : x = .codec block <;> simp [hx, hne]
    · rw [if_neg hheld]
      refine (Settles.nil.append (.acquire (mt h.mp hheld))).congr fun x => ?_
      by_cases hx : x = .codec block <;> simp [hx, hne]
  · simp only [if_neg hgrow]
    refine Settles.nil.congr fun x => ?_
    by_cases hx : x = .codec block
    · rw [if_pos hx, hx, h]
    · rw [if_neg hx]

theorem settles_includeCase (host : Host M) (B : RqMemBlocks M) (K nExtra nOut : ℤ) (T : ℕ)
    (P : Owner → Prop) :
    Settles (withCodec P B) (rqMemBlocksIncludeCaseUses host B K nExtra nOut T)
      (withCodec P (rqMemBlocksIncludeCase host B K nExtra nOut T).2) := by
  have hB : ∀ block, withCodec P B (.codec block) ↔ B.blockSize block ≠ 0 := fun _ => Iff.rfl
  unfold rqMemBlocksIncludeCaseUses rqMemBlocksIncludeCase
  by_cases hin : (host.interGetMemSizes K nExtra).1 < 0
  · simp only [if_pos hin]
    exact .nil
  · by_cases hout : (host.outGetMemSizes nOut).1 < 0
    · simp only [if_neg hin, if_pos hout]
      exact .nil
    · simp only [if_neg hin, if_neg hout]
      have hwork := B.interWorkMem.settles_alloc (host.interGetMemSizes K nExtra).2.1
        host.freshWork (hB .interWorkMem)
      refine Settles.congr ((((hwork.append
        (B.interProgMem.settles_alloc _ host.freshWork ?_)).append
        (B.interSymMem.settles_alloc _ host.freshByte ?_)).append
        (B.outWorkMem.settles_alloc _ host.freshWork ?_)).append
        (B.outProgMem.settles_alloc _ host.freshWork ?_)) fun x => ?_
      · simp [hB, RqMemBlocks.blockSize]
      · simp [hB, RqMemBlocks.blockSize]
      · simp [hB, RqMemBlocks.blockSize]
      · simp [hB, RqMemBlocks.blockSize]
      · cases x with
        | codec block => cases block <;> simp [withCodec, RqMemBlocks.blockSize]
        | cbstates | esi | hashEsi | symsBuf | outCbBuf | descriptor | socket => simp [withCodec]

theorem MemBlock.settles_free {C : Type} (b : MemBlock C) {block : CodecBlock}
    {P : Owner → Prop} (h : P (.codec block) ↔ b.allocated ≠ 0) :
    Settles P (b.freeUses block) fun x => x ≠ .codec block ∧ P x := by
  unfold MemBlock.freeUses
  by_cases hheld : b.allocated ≠ 0
  · rw [if_pos hheld]
    exact .release (h.mpr hheld)
  · rw [if_neg hheld]
    refine Settles.nil.congr fun x => ?_
    constructor
    · intro hx
      refine ⟨?_, hx⟩
      rintro rfl
      exact hheld (h.mp hx)
    · exact And.right

/-- `RqMemBlocksFreeMem` leaves nothing of the codec memory. -/
theorem settles_freeMem (B : RqMemBlocks M) (P : Owner → Prop) :
    Settles (withCodec P B) (rqMemBlocksFreeMemUses B) fun x =>
      (∀ block, x ≠ .codec block) ∧ P x := by
  have hB : ∀ block, withCodec P B (.codec block) ↔ B.blockSize block ≠ 0 := fun _ => Iff.rfl
  unfold rqMemBlocksFreeMemUses
  refine Settles.congr (((((B.interWorkMem.settles_free (hB .interWorkMem)).append
    (B.interProgMem.settles_free ?_)).append (B.interSymMem.settles_free ?_)).append
    (B.outWorkMem.settles_free ?_)).append (B.outProgMem.settles_free ?_)) fun x => ?_
  · simp [hB, RqMemBlocks.blockSize]
  · simp [hB, RqMemBlocks.blockSize]
  · simp [hB, RqMemBlocks.blockSize]
  · simp [hB, RqMemBlocks.blockSize]
  · cases x with
    | codec block => cases block <;> simp
    | cbstates | esi | hashEsi | symsBuf | outCbBuf | descriptor | socket => simp [withCodec]

/-- The memory at the end of the decoding branch, however it ends. -/
def lastMem : Except (DataExit × DataMem M) (DataMem M) → DataMem M
  | .ok m => m
  | .error x => x.2

/-- The calls of the codec replace none of its blocks. -/
theorem blockSize_runCalls (host : Host M) (C : Codeblockstate) (sz : ℕ) {calls : List DecodeCall}
    (h : .includeCase ∉ calls) (m : DataMem M) :
    (lastMem (runCalls host C sz calls m)).codec_mem.blockSize = m.codec_mem.blockSize := by
  induction calls generalizing m with
  | nil => rfl
  | cons call calls ih =>
      obtain ⟨hne, hrest⟩ := List.ne_and_not_mem_of_not_mem_cons h
      have hcall : (call.run host C sz m).2.codec_mem.blockSize = m.codec_mem.blockSize := by
        funext block
        cases call <;> first | (cases block <;> rfl) | exact absurd rfl hne
      rw [runCalls_cons]
      split
      · exact hcall
      · rw [ih hrest, hcall]

theorem blockSize_decodeBlock (host : Host M) (C : Codeblockstate) (sz : ℕ) (m : DataMem M) :
    (lastMem (decodeBlock host C sz m)).codec_mem.blockSize =
      (rqMemBlocksIncludeCase host m.codec_mem C.K (C.n_esi - C.K : ℤ) C.K C.T).2.blockSize := by
  rw [decodeBlock_eq_runCalls, decodeCalls, List.cons_append, List.cons_append, runCalls_cons]
  split
  · rfl
  · rw [blockSize_runCalls host C sz (by simp)]
    rfl

/-- Only the decoding branch may replace blocks of the codec memory. -/
theorem blockSize_getData {host : Host M} {C : Codeblockstate} {sz : ℕ} {m m' : DataMem M}
    {exit : DataExit} (h : codeblockstateGetData host C sz m = .ok (exit, m')) :
    m'.codec_mem.blockSize =
      if C.n_src_esi ≥ C.K ∨ C.n_esi < C.K then m.codec_mem.blockSize
      else (rqMemBlocksIncludeCase host m.codec_mem C.K (C.n_esi - C.K : ℤ) C.K C.T).2.blockSize
    := by
  simp only [codeblockstateGetData] at h
  obtain ⟨-, -, h⟩ := bind_eq_ok.mp h
  obtain ⟨data_out, -, h⟩ := bind_eq_ok.mp h
  split at h
  · rename_i hcopy
    rw [if_pos hcopy]
    obtain ⟨out, -, h⟩ := bind_eq_ok.mp h
    cases h
    rfl
  · rename_i hdecode
    rw [if_neg hdecode]
    have hlast := blockSize_decodeBlock host C sz { m with data_out }
    split at h
    · rename_i hd
      cases h
      rwa [hd] at hlast
    · rename_i hd
      obtain ⟨out, -, h⟩ := bind_eq_ok.mp h
      cases h
      rwa [hd] at hlast
    · rename_i hd
      cases h
      rwa [hd] at hlast

/-! ## Slots -/

/-- The slot of the ring that a block of memory belongs to. -/
def Owner.slot : Owner → Option (Fin segstateSetN)
  | .cbstates idx | .esi idx _ | .hashEsi idx _ | .symsBuf idx _ | .outCbBuf idx => some idx
  | .codec _ | .descriptor _ | .socket => none

/-- The blocks of a slot: those of some code blocks, and perhaps the output buffer. -/
def slotBlocks (first last : ℕ) (output : Prop) : Owner → Prop
  | .cbstates _ => True
  | .esi _ cb | .hashEsi _ cb | .symsBuf _ cb => first ≤ cb ∧ cb < last
  | .outCbBuf _ => output
  | .codec _ | .descriptor _ | .socket => False

/-- What a segment holds. -/
def Segstate.Holds (S : Segstate) : Owner → Prop :=
  slotBlocks 0 S.P.n_cb.toNat (S.mode = .writing)

/-- The holders `P`, with those of `Q` in one slot. -/
def withSlot (P : Owner → Prop) (idx : Fin segstateSetN) (Q : Owner → Prop) (x : Owner) : Prop :=
  if x.slot = some idx then Q x else P x

variable {P : Owner → Prop} {idx : Fin segstateSetN}

theorem settles_codeblockstateInit (cb : ℕ) :
    Settles (withSlot P idx (slotBlocks 0 cb False)) (codeblockstateInitUses idx cb)
      (withSlot P idx (slotBlocks 0 (cb + 1) False)) := by
  refine Settles.congr ((Settles.access (by simp [withSlot, Owner.slot, slotBlocks])).cons
    ((Settles.acquire (by simp [withSlot, Owner.slot, slotBlocks])).cons
    ((Settles.acquire (by simp [withSlot, Owner.slot, slotBlocks])).cons
    ((Settles.access (by simp)).cons
    (Settles.acquire (by simp [withSlot, Owner.slot, slotBlocks])))))) fun x => ?_
  cases x with
  | cbstates i | outCbBuf i => simp [withSlot, Owner.slot, slotBlocks]
  | codec | descriptor | socket => simp [withSlot, Owner.slot]
  | esi i k | hashEsi i k | symsBuf i k =>
      by_cases hi : i = idx
      · simp [withSlot, Owner.slot, slotBlocks, hi]
        omega
      · simp [withSlot, Owner.slot, hi]

theorem settles_codeblockstateFree {cb last : ℕ} (h : cb < last) :
    Settles (withSlot P idx (slotBlocks cb last False)) (codeblockstateFreeUses idx cb)
      (withSlot P idx (slotBlocks (cb + 1) last False)) := by
  refine Settles.congr ((Settles.access (by simp [withSlot, Owner.slot, slotBlocks])).cons
    ((Settles.release (by simp [withSlot, Owner.slot, slotBlocks, h])).cons
    ((Settles.release (by simp [withSlot, Owner.slot, slotBlocks, h])).cons
    (Settles.release (by simp [withSlot, Owner.slot, slotBlocks, h]))))) fun x => ?_
  cases x with
  | cbstates i | outCbBuf i => simp [withSlot, Owner.slot, slotBlocks]
  | codec | descriptor | socket => simp [withSlot, Owner.slot]
  | esi i k | hashEsi i k | symsBuf i k =>
      by_cases hi : i = idx
      · simp [withSlot, Owner.slot, slotBlocks, hi]
        omega
      · simp [withSlot, Owner.slot, hi]

/-- A free slot gets the blocks of a new segment. -/
theorem settles_segstateInit (hfree : ∀ x : Owner, x.slot = some idx → ¬P x) (C : CodingParams) :
    Settles P (segstateInitUses idx C) (withSlot P idx (slotBlocks 0 C.n_cb.toNat False)) := by
  have hblocks : ∀ n : ℕ, Settles (withSlot P idx (slotBlocks 0 0 False))
      ((List.range n).flatMap (codeblockstateInitUses idx))
      (withSlot P idx (slotBlocks 0 n False)) := by
    intro n
    induction n with
    | zero => exact .nil
    | succ n ih =>
        rw [List.range_succ, List.flatMap_append, List.flatMap_singleton]
        exact ih.append (settles_codeblockstateInit n)
  refine Settles.cons (Settles.congr (.acquire (hfree _ rfl)) fun x => ?_) (hblocks C.n_cb.toNat)
  by_cases hx : x.slot = some idx
  · have hno := hfree x hx
    cases x with
    | cbstates i =>
        obtain rfl := Option.some.inj hx
        simp [withSlot, Owner.slot, slotBlocks]
    | esi | hashEsi | symsBuf | outCbBuf => simp [withSlot, hx, slotBlocks, hno]
    | codec | descriptor | socket => cases hx
  · have hne : x ≠ .cbstates idx := by
      rintro rfl
      exact hx rfl
    simp [withSlot, hx, hne]

/-- `segstate_free` leaves nothing in the slot. -/
theorem settles_segstateFree {S : Segstate} (hbuf : S.out_cb_buf.size ≠ 0)
    (hcbs : S.cbstates ≠ []) :
    Settles (withSlot P idx (slotBlocks 0 S.P.n_cb.toNat True)) (segstateFreeUses idx S)
      (withSlot P idx fun _ => False) := by
  have hblocks : ∀ n ≤ S.P.n_cb.toNat, Settles
      (withSlot P idx (slotBlocks 0 S.P.n_cb.toNat False))
      ((List.range n).flatMap (codeblockstateFreeUses idx))
      (withSlot P idx (slotBlocks n S.P.n_cb.toNat False)) := by
    intro n
    induction n with
    | zero => exact fun _ => .nil
    | succ n ih =>
        intro hn
        rw [List.range_succ, List.flatMap_append, List.flatMap_singleton]
        exact (ih (by omega)).append (settles_codeblockstateFree (by omega))
  rw [segstateFreeUses, if_pos hbuf, if_pos hcbs]
  refine Settles.append (Settles.congr (.release (by simp [withSlot, Owner.slot, slotBlocks]))
    fun x => ?_) (Settles.congr ((hblocks _ le_rfl).append
      (.release (by simp [withSlot, Owner.slot, slotBlocks]))) fun x => ?_)
  · cases x with
    | cbstates | esi | hashEsi | symsBuf | codec | descriptor | socket =>
        simp [withSlot, Owner.slot, slotBlocks]
    | outCbBuf i => by_cases hi : i = idx <;> simp [withSlot, Owner.slot, slotBlocks, hi]
  · cases x with
    | outCbBuf | codec | descriptor | socket => simp [withSlot, Owner.slot, slotBlocks]
    | cbstates i | esi i | hashEsi i | symsBuf i =>
        by_cases hi : i = idx <;> simp [withSlot, Owner.slot, slotBlocks, hi]

/-! ## Reading and writing -/

theorem settles_addPacket {S : Segstate} (header : RouteHeader)
    (h : ∀ x : Owner, x.slot = some idx → slotBlocks 0 1 False x → P x) :
    Settles P (segstateAddPacketUses idx S header) P := by
  have hcbs : Settles P [.access (.cbstates idx)] P := .access (h _ rfl trivial)
  have hhash : Settles P [.access (.hashEsi idx 0)] P := .access (h _ rfl ⟨le_rfl, one_pos⟩)
  have hesi : Settles P [.access (.esi idx 0)] P := .access (h _ rfl ⟨le_rfl, one_pos⟩)
  have hsyms : Settles P [.access (.symsBuf idx 0)] P := .access (h _ rfl ⟨le_rfl, one_pos⟩)
  unfold segstateAddPacketUses
  split
  · unfold codeblockstateAddSymUses
    refine hcbs.cons ?_
    split
    · exact .nil
    · refine hhash.cons ?_
      split
      · exact hesi.cons hsyms
      · exact .nil
      · exact .nil
  · exact .nil

/-- Loading a block may replace blocks of the codec memory. -/
theorem settles_loadCbBuf {host : Host M} {m m' : SegMem M} (hload : loadCbBuf host m = .ok m')
    (h : ∀ x : Owner, x.slot = some idx →
      slotBlocks m.S.out_cb.toNat (m.S.out_cb.toNat + 1) True x → P x) :
    Settles (withCodec P m.codec_mem) (loadCbBufUses idx host m) (withCodec P m'.codec_mem) := by
  obtain ⟨-, -, hload⟩ := bind_eq_ok.mp hload
  obtain ⟨C, hC, hload⟩ := bind_eq_ok.mp hload
  obtain ⟨⟨exit, d⟩, hget, hload⟩ := bind_eq_ok.mp hload
  cases hload
  have hsize := blockSize_getData hget
  have hcb : m.S.out_cb.toNat < m.S.out_cb.toNat + 1 := Nat.lt_succ_self _
  have hcbs : ∀ B : RqMemBlocks M, withCodec P B (.cbstates idx) := fun _ => h _ rfl trivial
  have hbuf : ∀ B : RqMemBlocks M, withCodec P B (.outCbBuf idx) := fun _ => h _ rfl trivial
  have hesi : ∀ B : RqMemBlocks M, withCodec P B (.esi idx m.S.out_cb.toNat) := fun _ =>
    h _ rfl ⟨le_rfl, hcb⟩
  have hsyms : ∀ B : RqMemBlocks M, withCodec P B (.symsBuf idx m.S.out_cb.toNat) := fun _ =>
    h _ rfl ⟨le_rfl, hcb⟩
  have hbefore : ∀ B : RqMemBlocks M, Settles (withCodec P B)
      [.access (.cbstates idx), .access (.outCbBuf idx)] (withCodec P B) := fun B =>
    (Settles.access (hcbs B)).cons (.access (hbuf B))
  have hafter : ∀ B : RqMemBlocks M, Settles (withCodec P B)
      [.access (.esi idx m.S.out_cb.toNat), .access (.symsBuf idx m.S.out_cb.toNat),
        .access (.outCbBuf idx)] (withCodec P B) := fun B =>
    (Settles.access (hesi B)).cons ((Settles.access (hsyms B)).cons (.access (hbuf B)))
  unfold loadCbBufUses codeblockstateGetDataUses
  rw [orElse_eq_ok.mp hC]
  simp only
  by_cases hcopy : C.n_src_esi ≥ C.K ∨ C.n_esi < C.K
  · rw [if_pos hcopy] at hsize ⊢
    refine (((hbefore _).append .nil).append (hafter _)).congr fun x => ?_
    cases x <;> simp [withCodec, hsize]
  · rw [if_neg hcopy] at hsize ⊢
    have hinclude := settles_includeCase host m.codec_mem C.K (C.n_esi - C.K : ℤ) C.K C.T P
    refine (((hbefore _).append hinclude).append (hafter _)).congr fun x => ?_
    cases x <;> simp [withCodec, hsize]

theorem segstatePrepareOutput_keeps {host : Host M} {S : Segstate} {fd : ℤ} {B : RqMemBlocks M}
    {m : SegMem M} (h : segstatePrepareOutput host S fd B = .ok m) :
    m.S.P = S.P ∧ m.S.cbstates = S.cbstates ∧ m.S.mode = .writing := by
  simp only [segstatePrepareOutput, loadCbBuf, bind_eq_ok, pure_eq_ok, Except.ok.injEq] at h
  obtain ⟨_, -, _, -, _, -, _, -, rfl⟩ := h
  exact ⟨rfl, rfl, rfl⟩

/-- A segment that is opened for writing also holds its output buffer. -/
theorem settles_prepareOutput {host : Host M} {S : Segstate} {fd : ℤ} {m : SegMem M}
    {B : RqMemBlocks M} (hprep : segstatePrepareOutput host S fd B = .ok m)
    (hmode : S.mode ≠ .writing) (hblocks : 0 < S.P.n_cb) :
    Settles (withCodec (withSlot P idx S.Holds) B) (segstatePrepareOutputUses idx host S B)
      (withCodec (withSlot P idx m.S.Holds) m.codec_mem) := by
  obtain ⟨hP, -, hwriting⟩ := segstatePrepareOutput_keeps hprep
  obtain ⟨-, -, hload⟩ := bind_eq_ok.mp hprep
  have hfree : ¬withCodec (withSlot P idx S.Holds) B (.outCbBuf idx) := by
    simp [withCodec, withSlot, Owner.slot, Segstate.Holds, slotBlocks, hmode]
  have hblock : ∀ x : Owner, x.slot = some idx → slotBlocks 0 1 True x →
      withSlot P idx m.S.Holds x := by
    intro x hx hslot
    rw [withSlot, if_pos hx, Segstate.Holds, hP]
    cases x with
    | cbstates => trivial
    | outCbBuf => exact hwriting
    | esi | hashEsi | symsBuf =>
        simp only [slotBlocks] at hslot ⊢
        omega
    | codec | descriptor | socket => cases hx
  have hloaded : Settles (withCodec (withSlot P idx m.S.Holds) B) _
      (withCodec (withSlot P idx m.S.Holds) m.codec_mem) := settles_loadCbBuf hload hblock
  refine Settles.cons (Settles.congr (.acquire hfree) fun x => ?_) hloaded
  cases x with
  | outCbBuf i =>
      by_cases hi : i = idx <;>
        simp [withCodec, withSlot, Owner.slot, Segstate.Holds, slotBlocks, hi, hwriting]
  | cbstates | esi | hashEsi | symsBuf | codec | descriptor | socket =>
      simp [withCodec, withSlot, Owner.slot, Segstate.Holds, slotBlocks, hP]

/-- A write goes to the descriptor of the segment. -/
theorem Segstate.Writes.settles {S : Segstate} {f : ℤ} {file_len offs : ℕ}
    (h : S.Writes f file_len offs) (host : Host M) (B : RqMemBlocks M) (taken : Option ℕ)
    (hfd : P (.descriptor S.out_fd)) (hbuf : P (.outCbBuf idx)) :
    Settles P (segstateWriteMoreUses idx host { S, codec_mem := B } taken) P := by
  have hlast : S.out_cb + 1 = S.P.n_cb := by
    rw [h.out_cb_eq, h.P_eq]
    rfl
  have haccess : Settles P [.access (.descriptor S.out_fd), .access (.outCbBuf idx)] P :=
    (Settles.access hfd).cons (.access hbuf)
  unfold segstateWriteMoreUses
  simp only
  rw [if_neg (by omega)]
  refine haccess.append ?_
  cases taken with
  | none => exact .nil
  | some k =>
      simp only [hlast, ne_eq, not_true_eq_false, and_false, if_false]
      exact .nil

theorem Segstate.Writes.writeMore_keeps {S : Segstate} {f : ℤ} {file_len offs : ℕ}
    (h : S.Writes f file_len offs) (hfd : S.out_fd ≠ -1) {host : Host M} {B : RqMemBlocks M}
    {taken : Option ℕ} {w : WriteMore M}
    (hw : segstateWriteMore host { S, codec_mem := B } taken = .ok w) :
    w.mem.S.P = S.P ∧ w.mem.S.cbstates = S.cbstates ∧ w.mem.S.mode = S.mode ∧
      w.mem.S.out_cb_buf = S.out_cb_buf ∧ w.mem.codec_mem = B := by
  cases taken with
  | none =>
      rw [h.writeMore_error hfd] at hw
      cases hw
      exact ⟨rfl, rfl, rfl, rfl, rfl⟩
  | some k =>
      rw [h.writeMore_some hfd] at hw
      cases hw
      simp only
      split <;> exact ⟨rfl, rfl, rfl, rfl, trivial⟩

end RqRoute
