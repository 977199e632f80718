import RqRoute.Verification.Receiver.Progress
import RqRoute.Verification.Receiver.Traffic
import RqRoute.Verification.Segstate.Resources

/-! # What the receiver holds

Nothing is lost, used when it is gone, or released twice, in any run of the receive loop. -/

namespace RqRoute

open Checked Segstateset Ownership Transition

variable {M : Type}

/-! ## The ring -/

/-- What is held by the segments of the ring, the descriptor that is open, and the socket. -/
def Segstateset.Holds (SS : Segstateset) (out_fd : ℤ) (x : Owner) : Prop :=
  (∃ idx, x.slot = some idx ∧ SS.states_initialized idx ∧ (SS.states idx).Holds x) ∨
    x = .descriptor out_fd ∧ out_fd ≠ -1 ∨ x = .socket

/-- What the receiver holds. -/
def Receiver.Holds (R : Receiver M) : Owner → Prop :=
  withCodec (R.SS.Holds R.out_fd) R.codec_mem

section
variable {SS : Segstateset} {out_fd : ℤ}

theorem holds_of_slot {x : Owner} {idx : Fin segstateSetN} (hx : x.slot = some idx) :
    SS.Holds out_fd x ↔ SS.states_initialized idx ∧ (SS.states idx).Holds x := by
  unfold Segstateset.Holds
  constructor
  · rintro (⟨i, hi, hheld⟩ | ⟨rfl, -⟩ | rfl)
    · obtain rfl := Option.some.inj (hx.symm.trans hi)
      exact hheld
    · cases hx
    · cases hx
  · exact fun hheld => .inl ⟨idx, hx, hheld⟩

theorem holds_of_not_slot {x : Owner} (hx : x.slot = none) :
    SS.Holds out_fd x ↔ x = .descriptor out_fd ∧ out_fd ≠ -1 ∨ x = .socket := by
  unfold Segstateset.Holds
  simp [hx]

@[simp] theorem holds_descriptor {fd : ℤ} :
    SS.Holds out_fd (.descriptor fd) ↔ fd = out_fd ∧ out_fd ≠ -1 := by
  rw [holds_of_not_slot rfl, Owner.descriptor.injEq]
  simp

@[simp] theorem holds_socket : SS.Holds out_fd .socket := .inr (.inr rfl)

theorem holds_put (f : ℤ) (S : Segstate) :
    (SS.put f S).Holds out_fd = withSlot (SS.Holds out_fd) (slotIndex SS f) S.Holds := by
  funext x
  apply propext
  unfold withSlot
  cases hx : x.slot with
  | none => simp [holds_of_not_slot hx]
  | some idx =>
      rw [holds_of_slot hx]
      by_cases hidx : idx = slotIndex SS f
      · simp [hidx, put]
      · simp [hidx, put, holds_of_slot hx]

theorem holds_incMinFileNbr : (segstatesetIncMinFileNbr SS).Holds out_fd =
    withSlot (SS.Holds out_fd) (slotIndex SS SS.min_file_nbr) fun _ => False := by
  funext x
  apply propext
  unfold withSlot
  cases hx : x.slot with
  | none => simp [holds_of_not_slot hx]
  | some idx =>
      rw [holds_of_slot hx, initialized_incMinFileNbr, slotIndex_min]
      by_cases hidx : idx = SS.first_index_in_array
      · simp [hidx]
      · rw [if_neg hidx, if_neg (by simpa using hidx), holds_of_slot hx]
        rfl

theorem holds_markReadytowrite (n : ℤ) :
    (segstatesetMarkReadytowrite SS n).Holds out_fd = SS.Holds out_fd := by
  funext x
  apply propext
  cases hx : x.slot with
  | none => simp [holds_of_not_slot hx]
  | some idx =>
      rw [holds_of_slot hx, holds_of_slot hx]
      refine and_congr_right fun _ => iff_of_eq ?_
      change (markReadySlot SS n idx).Holds x = _
      unfold markReadySlot
      split
      · rename_i hready
        have hmode : (SS.states idx).mode = .receiving := hready.2.1
        simp [Segstate.Holds, segstateReadyForWrite, hmode]
      · rfl

/-- The slot of a segment holds what the segment does. -/
theorem withSlot_of_lookup {f : ℤ} {S : Segstate} (hS : SS.lookup f = some S) :
    withSlot (SS.Holds out_fd) (slotIndex SS f) S.Holds = SS.Holds out_fd := by
  funext x
  apply propext
  unfold withSlot
  by_cases hx : x.slot = some (slotIndex SS f)
  · obtain ⟨-, hinit, rfl⟩ := lookup_eq_some_iff.mp hS
    rw [if_pos hx, holds_of_slot hx, hinit, eq_self, true_and]
  · rw [if_neg hx]

theorem not_holds_of_lookup {f : ℤ} (hin : SS.InWindow f) (hnone : SS.lookup f = none) {x : Owner}
    (hx : x.slot = some (slotIndex SS f)) : ¬SS.Holds out_fd x := by
  rw [holds_of_slot hx]
  rintro ⟨hinit, -⟩
  rw [lookup_eq_some_iff.mpr ⟨hin, hinit, rfl⟩] at hnone
  cases hnone

/-- Storing a segment that holds the same. -/
theorem holds_put_of_lookup {f : ℤ} {S S' : Segstate} (hS : SS.lookup f = some S)
    (hP : S'.P = S.P) (hmode : S'.mode = S.mode) :
    (SS.put f S').Holds out_fd = SS.Holds out_fd := by
  have hsame : S'.Holds = S.Holds := by
    unfold Segstate.Holds
    rw [hP, hmode]
  rw [holds_put, hsame, withSlot_of_lookup hS]

end

theorem withCodec_withSlot (P Q : Owner → Prop) (idx : Fin segstateSetN) (B : RqMemBlocks M) :
    withCodec (withSlot P idx Q) B = withSlot (withCodec P B) idx Q := by
  funext x
  cases x <;> simp [withCodec, withSlot, Owner.slot]

theorem withSlot_withSlot (P Q Q' : Owner → Prop) (idx : Fin segstateSetN) :
    withSlot (withSlot P idx Q) idx Q' = withSlot P idx Q' := by
  funext x
  unfold withSlot
  by_cases hx : x.slot = some idx
  · rw [if_pos hx, if_pos hx]
  · rw [if_neg hx, if_neg hx, if_neg hx]

/-- Every segment of the window is one code block. -/
theorem Receiver.Inv.oneBlock {R : Receiver M} (h : R.Inv) {f : ℤ} {S : Segstate}
    (hS : R.SS.lookup f = some S) : S.P.n_cb = 1 := by
  rcases h.segs f S hS with hg | ⟨-, hd⟩
  · obtain ⟨_, _, hr⟩ := hg.receives
    rw [hr.P_eq]
    rfl
  · obtain ⟨_, _, hw⟩ := hd.writes
    rw [hw.P_eq]
    rfl

/-! ## One pass -/

section
variable {host : Host M} {R R' : Receiver M} {opened : Option ℕ} {es : List Event}

theorem Receiver.Starts.settles (h : R.Starts host opened es R') (hinv : R.Inv)
    (hfd : R.out_fd = -1) :
    Settles R.Holds (taskStartWriteUses host R.SS R.codec_mem opened) R'.Holds := by
  unfold taskStartWriteUses segstatesetGetMinFileNbr
  cases h with
  | idle hnot =>
      cases hS : R.SS.lookup R.SS.min_file_nbr with
      | none =>
          rw [get_of_lookup_none R.SS.inWindow_min hS]
          exact .nil
      | some S =>
          rw [get_of_lookup_some hS]
          simp only [segstateGetMode, states_of_lookup hS]
          rw [if_pos (.inr (hnot S hS))]
          exact .nil
  | @refused S hS hmode hopen =>
      rw [get_of_lookup_some hS, hopen]
      simp only [ite_self]
      exact .nil
  | @opens S fd m hS hmode hopen hprep =>
      rw [get_of_lookup_some hS, hopen]
      simp only [segstateGetMode, states_of_lookup hS, hmode]
      rw [if_neg (by simp), if_pos trivial]
      have hopened : Settles R.Holds [.acquire (.descriptor fd), .access (.descriptor fd)]
          (withCodec (R.SS.Holds fd) R.codec_mem) := by
        refine Settles.cons (.acquire ?_) (Settles.congr (.access (.inl rfl)) fun x => ?_)
        · simp [Receiver.Holds, withCodec, hfd]
        · cases x with
          | codec => simp [Receiver.Holds, withCodec]
          | descriptor n =>
              have hne : (fd : ℤ) ≠ -1 := by omega
              simp [Receiver.Holds, withCodec, hfd, hne]
          | cbstates | esi | hashEsi | symsBuf | outCbBuf | socket =>
              simp [Receiver.Holds, withCodec, Segstateset.Holds, Owner.slot]
      refine hopened.append ?_
      rw [← withSlot_of_lookup hS, Receiver.Holds, holds_put]
      exact settles_prepareOutput hprep (by simp [hmode]) (by rw [hinv.oneBlock hS]; exact one_pos)

/-- No segment of the window is without code blocks. -/
def Receiver.Filled (R : Receiver M) : Prop := ∀ f S, R.SS.lookup f = some S → S.cbstates ≠ []

theorem Receiver.Writes.settles {taken : Option ℕ} (h : R.Writes host taken opened es R')
    (hinv : R.Inv) (hfilled : R.Filled) (hfd : R.out_fd ≠ -1) :
    ∃ us, taskWriteUses host R.SS R.out_fd R.codec_mem taken opened = .ok us ∧
      Settles R.Holds us R'.Holds := by
  obtain ⟨S, hS, hd⟩ := hinv.drains hfd
  obtain ⟨file_len, offs, hwr⟩ := hd.writes
  have hopen : S.out_fd ≠ -1 := by rwa [hd.out_fd_eq]
  have hring : withSlot (R.SS.Holds R.out_fd) (slotIndex R.SS R.SS.min_file_nbr) S.Holds =
      R.SS.Holds R.out_fd := withSlot_of_lookup hS
  have hwrites : Settles R.Holds (segstateWriteMoreUses (slotIndex R.SS R.SS.min_file_nbr) host
      { S, codec_mem := R.codec_mem } taken) R.Holds := by
    refine hwr.settles host R.codec_mem taken ?_ ?_
    · rw [hd.out_fd_eq]
      exact .inr (.inl ⟨rfl, hfd⟩)
    · rw [Receiver.Holds, ← hring]
      simp [withCodec, withSlot, Owner.slot, Segstate.Holds, slotBlocks, hwr.mode_eq]
  unfold taskWriteUses segstatesetGetMinFileNbr
  simp only [get_of_lookup_some hS]
  rw [check_bind trivial, orElse_some, ok_bind, states_of_lookup hS]
  cases h with
  | @more S' w hS' hwrite hmore =>
      obtain rfl := Option.some.inj (hS.symm.trans hS')
      obtain ⟨hP, -, hmode, -, hB⟩ := hwr.writeMore_keeps hopen hwrite
      rw [hwrite, ok_bind, if_pos hmore]
      have hsame : Receiver.Holds { R with
          SS := R.SS.put R.SS.min_file_nbr w.mem.S, codec_mem := w.mem.codec_mem } = R.Holds := by
        simp only [Receiver.Holds]
        rw [holds_put_of_lookup hS hP hmode, hB]
      refine ⟨_, rfl, ?_⟩
      rwa [hsame]
  | @last S' w es R' hS' hwrite hmore hstart =>
      obtain rfl := Option.some.inj (hS.symm.trans hS')
      obtain ⟨hP, hcbs, hmode, hbuf, hB⟩ := hwr.writeMore_keeps hopen hwrite
      obtain ⟨w', hwrite', -, hnbr, -⟩ := hwr.writeMore hopen host R.codec_mem taken
      obtain rfl := Except.ok.inj (hwrite'.symm.trans hwrite)
      rw [hwrite, ok_bind, if_neg (by simp [hmore]), setSlot_eq_put hS]
      refine ⟨_, rfl, ?_⟩
      have hfree : Settles R.Holds (segstateFreeUses (slotIndex R.SS R.SS.min_file_nbr) w'.mem.S)
          (withSlot R.Holds (slotIndex R.SS R.SS.min_file_nbr) fun _ => False) := by
        have hsize := hwr.small.symbols.2.1
        have hheld : R.Holds = withSlot R.Holds (slotIndex R.SS R.SS.min_file_nbr)
            (slotBlocks 0 w'.mem.S.P.n_cb.toNat True) := by
          have hself : S.Holds = slotBlocks 0 w'.mem.S.P.n_cb.toNat True := by
            rw [Segstate.Holds, hP, hwr.mode_eq, eq_self]
          rw [← hself, Receiver.Holds, ← withCodec_withSlot, hring]
        rw [hheld, withSlot_withSlot]
        refine settles_segstateFree ?_ ?_
        · rw [hbuf, hwr.buf_size]
          omega
        · rw [hcbs]
          exact hfilled _ S hS
      refine ((hwrites.append hfree).append (Settles.congr (.release ?_) fun x => ?_)).append
        (hstart.settles (hinv.retire hS hwr.mode_eq hnbr) rfl)
      · simp [withSlot, Owner.slot, Receiver.Holds, withCodec, hfd]
      · simp only [Receiver.retire, Receiver.Holds]
        rw [holds_incMinFileNbr, holds_put, min_put, slotIndex_put, withSlot_withSlot, hB]
        cases x with
        | codec => simp [withCodec, withSlot, Owner.slot]
        | descriptor fd =>
            simp only [withCodec, withSlot, Owner.slot]
            simp
            exact fun hne heq => absurd heq hne
        | cbstates | esi | hashEsi | symsBuf | outCbBuf | socket =>
            simp [withCodec, withSlot, Owner.slot, Segstateset.Holds]

/-- A packet is added to a segment of the window. -/
theorem Receiver.Inv.settles_add (hinv : R.Inv) {f : ℤ} {S S' : Segstate}
    (hS : R.SS.lookup f = some S) {header : RouteHeader} {payload : List UInt8}
    (hadd : segstateAddPacket S header payload = .ok S') :
    Settles R.Holds (segstateAddPacketUses (slotIndex R.SS f) S header)
      (Receiver.Holds { R with SS := R.SS.put f S' }) := by
  obtain ⟨-, -, -, cbs, rfl⟩ := segstateAddPacket_eq_ok hadd
  have hsame : (R.SS.put f { S with cbstates := cbs }).Holds R.out_fd = R.SS.Holds R.out_fd :=
    holds_put_of_lookup hS rfl rfl
  have hone := hinv.oneBlock hS
  simp only [Receiver.Holds]
  rw [hsame]
  refine settles_addPacket header fun x hx hslot => ?_
  rw [← withSlot_of_lookup hS, withCodec_withSlot, withSlot, if_pos hx, Segstate.Holds, hone]
  cases x with
  | outCbBuf => cases hslot
  | cbstates | esi | hashEsi | symsBuf | codec | descriptor | socket => exact hslot

/-- A new segment gets its blocks. -/
theorem settles_enter {f : ℤ} {file_len : ℕ} (hin : R.SS.InWindow f)
    (hnone : R.SS.lookup f = none) :
    Settles R.Holds
      (segstateInitUses (slotIndex R.SS f) (initialSegment host f file_len).P)
      (R.enter host f file_len).Holds := by
  have hring : (R.enter host f file_len).SS.Holds R.out_fd =
      withSlot (R.SS.Holds R.out_fd) (slotIndex R.SS f) (initialSegment host f file_len).Holds := by
    unfold Receiver.enter
    split
    · simp only [holds_markReadytowrite, holds_put]
    · simp only [holds_put]
  have hself : (initialSegment host f file_len).Holds =
      slotBlocks 0 (initialSegment host f file_len).P.n_cb.toNat False := by
    rw [Segstate.Holds]
    simp [initialSegment]
  rw [Receiver.Holds, Receiver.Holds, out_fd_enter, codec_mem_enter, hring, hself,
    withCodec_withSlot]
  refine settles_segstateInit (fun x hx => ?_) _
  have hno : ¬R.SS.Holds R.out_fd x := not_holds_of_lookup hin hnone hx
  cases x with
  | codec => cases hx
  | cbstates | esi | hashEsi | symsBuf | outCbBuf | descriptor | socket => exact hno

theorem initSegmentUses_eq {header : RouteHeader} (hin : R.SS.InWindow header.toi.toNat)
    (hnone : R.SS.lookup header.toi.toNat = none) (hsmall : SmallFile header.tos.toNat) :
    initSegmentUses host R (slotIndex R.SS header.toi.toNat) header opened =
      .ok (segstateInitUses (slotIndex R.SS header.toi.toNat)
          (initialSegment host header.toi.toNat header.tos.toNat).P ++
        if (header.toi.toNat : ℤ) > R.recv_file_nbr ∧ R.write_ok ∧ R.out_fd = -1 then
          taskStartWriteUses host (R.enter host header.toi.toNat header.tos.toNat).SS
            R.codec_mem opened
        else []) := by
  have hinit : segstateInit host header.toi.toNat header.tos.toNat = .ok _ :=
    (segstateInit_eq_ok_iff header.tos.toNat_lt).mpr ⟨hsmall, rfl⟩
  rw [initSegmentUses, hinit]
  simp only [ok_bind, markInitialized_setSlot hin hnone]
  by_cases hnew : (header.toi.toNat : ℤ) > R.recv_file_nbr
  · simp only [Receiver.enter, if_pos hnew]
    rfl
  · simp [hnew]

theorem Receiver.Gets.settles {d : Datagram} (h : R.Gets host d opened es R') (hinv : R.Inv) :
    ∃ us, receivePacketUses host R d opened = .ok us ∧ Settles R.Holds us R'.Holds := by
  unfold receivePacketUses
  have hnonneg : (0 : ℤ) ≤ d.header.toi.toNat := by omega
  cases h with
  | outside hout =>
      rcases get_cases R.SS d.header.toi.toNat with ⟨-, hget⟩ | ⟨-, hget⟩ | ⟨hin, -⟩ | ⟨hin, -⟩
      · rw [hget]
        exact ⟨_, rfl, .nil⟩
      · rw [hget]
        exact ⟨_, rfl, .nil⟩
      · exact absurd hin hout
      · exact absurd hin hout
  | known hS hadd =>
      rw [get_of_lookup_some hS]
      simp only [orElse_some, ok_bind, states_of_lookup hS]
      exact ⟨_, rfl, hinv.settles_add hS hadd⟩
  | first hin hnone hsmall hquiet hadd =>
      have hself := lookup_enter host hin d.header.tos.toNat d.header.toi.toNat
      rw [if_pos rfl] at hself
      have hslot : slotIndex R.SS d.header.toi.toNat =
          slotIndex (R.enter host d.header.toi.toNat d.header.tos.toNat).SS d.header.toi.toNat :=
        (slotIndex_enter ..).symm
      rw [get_of_lookup_none hin hnone]
      dsimp only
      rw [orElse_some, ok_bind, initSegmentUses_eq hin hnone hsmall, ok_bind,
        initSegment_eq hin hnone hsmall, if_neg hquiet, if_neg hquiet, ok_bind, List.append_nil]
      refine ⟨_, rfl, (settles_enter hin hnone).append ?_⟩
      rw [hslot, states_of_lookup hself]
      exact (hinv.enter host hin hnonneg hnone hsmall).settles_add hself hadd
  | @newest S' es R₁ hin hnone hsmall hnew hok hfd hstart hadd =>
      have hself := lookup_enter host hin d.header.tos.toNat d.header.toi.toNat
      rw [if_pos rfl] at hself
      have hclosed : (R.enter host d.header.toi.toNat d.header.tos.toNat).out_fd = -1 :=
        (out_fd_enter ..).trans hfd
      have hinv₁ := hinv.enter host hin hnonneg hnone hsmall
      obtain ⟨r, hr, rfl, rfl⟩ := (starts_iff hclosed).mpr hstart
      obtain ⟨hlook, hslot⟩ := hstart.lookup_receiving hself rfl
      rw [slotIndex_enter] at hslot
      have hgo : (d.header.toi.toNat : ℤ) > R.recv_file_nbr ∧ R.write_ok = true ∧ R.out_fd = -1 :=
        ⟨hnew, hok, hfd⟩
      rw [get_of_lookup_none hin hnone]
      dsimp only
      rw [orElse_some, ok_bind, initSegmentUses_eq hin hnone hsmall, ok_bind,
        initSegment_eq hin hnone hsmall, if_pos hgo, if_pos hgo]
      simp only [hr, ok_bind, pure_eq_ok]
      have hstarted := hstart.settles hinv₁ hclosed
      rw [codec_mem_enter] at hstarted
      refine ⟨_, rfl, ((settles_enter hin hnone).append hstarted).append ?_⟩
      rw [← hslot, states_of_lookup hlook]
      exact (hinv₁.starts ((write_ok_enter ..).trans hok) hclosed hstart).settles_add hlook hadd

/-- One pass takes, uses and gives back what it may. -/
theorem Receiver.Step.settles {L : SegmentList} {i : Input} (h : R.Step L host i R' es)
    (hinv : R.Inv) (hfilled : R.Filled) :
    ∃ us, loopPassUses L host R i = .ok us ∧ Settles R.Holds us R'.Holds := by
  obtain ⟨hmay, hlist, hpass⟩ := step_iff.mp h
  have hsocket : Settles R.Holds [.access .socket] R.Holds := .access holds_socket
  have htask : ∃ us, nexttaskUses host R i = .ok us ∧ Settles R.Holds us R'.Holds := by
    unfold nexttaskUses
    cases hpass with
    | recv htask hpkt hgets =>
        obtain ⟨us, hus, hsettles⟩ := hgets.settles hinv
        rw [htask, ok_bind, hpkt]
        dsimp only
        rw [hus]
        exact ⟨_, rfl, hsocket.cons hsettles⟩
    | write htask hwrites =>
        rw [htask, ok_bind]
        exact hwrites.settles hinv hfilled (nexttask_write htask)
    | startWrite htask hstarts =>
        rw [htask, ok_bind]
        obtain ⟨hfd, hst, -⟩ := nexttask_startWrite hmay htask
        exact ⟨_, rfl, hstarts.settles (hinv.permit hst) hfd⟩
    | signalReady htask =>
        rw [htask, ok_bind]
        exact ⟨_, rfl, .nil⟩
  obtain ⟨us, hus, hsettles⟩ := htask
  unfold loopPassUses segstatesetGetMinFileNbr
  rw [if_neg hlist, hus]
  exact ⟨_, rfl, hsocket.cons hsettles⟩

end

/-! ## Whole runs -/

theorem segstateWriteMore_cbstates {host : Host M} {m : SegMem M} {taken : Option ℕ}
    {w : WriteMore M} (h : segstateWriteMore host m taken = .ok w) :
    w.mem.S.cbstates = m.S.cbstates := by
  simp only [segstateWriteMore, loadCbBuf, bind_eq_ok, pure_eq_ok] at h
  obtain ⟨_, -, _, -, h⟩ := h
  split at h
  · cases h
    rfl
  · simp only [bind_eq_ok] at h
    obtain ⟨_, -, _, -, h⟩ := h
    cases taken with
    | none =>
        cases h
        rfl
    | some k =>
        simp only [bind_eq_ok] at h
        obtain ⟨_, -, h⟩ := h
        split at h
        · split at h
          · cases h
            rfl
          · simp only [bind_eq_ok] at h
            obtain ⟨_, ⟨_, -, _, -, _, -, hload⟩, h⟩ := h
            cases hload
            cases h
            rfl
        · cases h
          rfl

theorem Receiver.Filled.step {L : SegmentList} {host : Host M} {R R' : Receiver M} {i : Input}
    {es : List Event} (h : R.Filled) (hs : R.Step L host i R' es) : R'.Filled := by
  refine hs.segments (P := fun _ S => S.cbstates ≠ []) ?_ ?_ ?_ ?_ ?_ h
  · intro f S n hS
    unfold markReady
    split <;> exact hS
  · intro f S S' header payload _ hadd
    simp only [segstateAddPacket, bind_eq_ok, pure_eq_ok, Except.ok.injEq] at hadd
    obtain ⟨_, _, _, _, _, _, _, _, _, _, C, _, C', _, rfl⟩ := hadd
    exact List.cons_ne_nil _ _
  · intro f S fd B m hS hprep
    rw [(segstatePrepareOutput_keeps hprep).2.1]
    exact hS
  · intro f S B taken w hS hwrite
    rw [segstateWriteMore_cbstates hwrite]
    exact hS
  · intro d _ _ _
    exact List.cons_ne_nil _ _

section
variable {L : SegmentList} {host : Host M} {ready_fd : ℤ} {R : Receiver M}
  {t : List (Entry (Receiver M) Input Event)}

/-- What the passes of a run take, use and give back. -/
def passesUses (L : SegmentList) (host : Host M) (t : List (Entry (Receiver M) Input Event)) :
    Except Fault (List (List (Use Owner))) := t.mapM fun x => loopPassUses L host x.before x.input

/-- What `receive_write` takes, uses and gives back in a run. -/
def runUses (L : SegmentList) (host : Host M) (t : List (Entry (Receiver M) Input Event)) :
    Except Fault (List (Use Owner)) := do
  let passes ← passesUses L host t
  return bindSocketUses ++ passes.flatten

/-- In the beginning there is the socket. -/
theorem holds_init (host : Host M) (ready_fd : ℤ) (x : Owner) :
    (Receiver.init host ready_fd).Holds x ↔ x = .socket := by
  cases x with
  | codec block =>
      cases block <;> simp [Receiver.Holds, withCodec, Receiver.init, RqMemBlocks.blockSize,
        RqMemBlocks.zero, MemBlock.null]
  | cbstates | esi | hashEsi | symsBuf | outCbBuf | descriptor | socket =>
      simp [Receiver.Holds, withCodec, Receiver.init, Segstateset.Holds, segstatesetInit,
        Owner.slot]

theorem settles_bindSocket (host : Host M) (ready_fd : ℤ) :
    Settles (fun _ => False) bindSocketUses (Receiver.init host ready_fd).Holds := by
  refine Settles.cons (.acquire (by simp)) (Settles.congr (.access (.inl rfl)) fun x => ?_)
  rw [holds_init, or_false]

theorem settles_passes
    (h : Run (Receiver.Step L host) (Receiver.init host ready_fd) t R) :
    (R.Inv ∧ R.Filled) ∧ ∃ uss, passesUses L host t = .ok uss ∧
      Settles (Receiver.init host ready_fd).Holds uss.flatten R.Holds := by
  induction h with
  | nil =>
      refine ⟨⟨inv_init host ready_fd, fun f S hS => ?_⟩, [], rfl, .nil⟩
      simp [Receiver.init] at hS
  | snoc _ hstep ih =>
      obtain ⟨⟨hinv, hfilled⟩, uss, huss, hsettles⟩ := ih
      obtain ⟨us, hus, hone⟩ := hstep.settles hinv hfilled
      refine ⟨⟨hinv.step hstep, hfilled.step hstep⟩, uss ++ [us], ?_, ?_⟩
      · rw [passesUses] at huss
        rw [passesUses, List.mapM_append, huss]
        simp [hus]
      · rw [List.flatten_append, List.flatten_singleton]
        exact hsettles.append hone

theorem settles_of_run
    (h : Run (Receiver.Step L host) (Receiver.init host ready_fd) t R) :
    ∃ us, runUses L host t = .ok us ∧ Settles (fun _ => False) us R.Holds := by
  obtain ⟨-, uss, huss, hsettles⟩ := settles_passes h
  refine ⟨_, ?_, (settles_bindSocket host ready_fd).append hsettles⟩
  rw [runUses, huss]
  rfl

/-- All that the receiver may hold. -/
def Receiver.candidates (R : Receiver M) : List Owner :=
  (List.finRange segstateSetN).flatMap (fun idx =>
    [.cbstates idx, .esi idx 0, .hashEsi idx 0, .symsBuf idx 0]) ++
  [.outCbBuf (slotIndex R.SS R.SS.min_file_nbr), .codec .interWorkMem, .codec .interProgMem,
    .codec .interSymMem, .codec .outWorkMem, .codec .outProgMem, .descriptor R.out_fd,
    .socket]

theorem Receiver.Inv.mem_candidates (h : R.Inv) {x : Owner} (hx : R.Holds x) :
    x ∈ R.candidates := by
  have hslot : ∀ idx, R.SS.states_initialized idx → (R.SS.states idx).P.n_cb = 1 := fun idx hinit =>
    h.oneBlock (h.placed.lookup_states hinit)
  unfold Receiver.candidates
  cases x with
  | codec block => cases block <;> simp
  | descriptor fd =>
      obtain ⟨rfl, -⟩ := holds_descriptor.mp hx
      simp
  | cbstates idx => simp
  | socket => simp
  | esi idx cb | hashEsi idx cb | symsBuf idx cb =>
      obtain ⟨hinit, -, hlt⟩ := (holds_of_slot rfl).mp hx
      rw [hslot idx hinit] at hlt
      obtain rfl : cb = 0 := by simpa using hlt
      simp
  | outCbBuf idx =>
      obtain ⟨hinit, hmode⟩ := (holds_of_slot rfl).mp hx
      obtain ⟨f, hin, rfl, hnbr⟩ := h.placed idx hinit
      rcases h.segs _ _ (h.placed.lookup_states hinit) with hg | ⟨hmin, -⟩
      · exact absurd hmode hg.mode_ne
      · rw [hnbr] at hmin
        simp [hmin]

/-- In every run, whatever arrives, and however opens and writes end: no block of memory and no
descriptor is lost, used when it is gone, or given back twice. What is held is at every moment
what the segments of the window need, the descriptor of the one that is written, the codec
memory, and the socket, never more than 24 objects. When the loop is done, its last call leaves
none of the codec memory; the socket is never closed. -/
theorem resources_balanced
    (h : Run (Receiver.Step L host) (Receiver.init host ready_fd) t R) :
    ∃ uses held, runUses L host t = .ok uses ∧ account ∅ uses = some held ∧
      (∀ x, x ∈ held ↔ R.Holds x) ∧ held.card ≤ 24 ∧ .socket ∈ held ∧
      (∀ x, uses.count (.acquire x) = uses.count (.release x) + if x ∈ held then 1 else 0) ∧
      (R.SS.min_file_nbr = L.n_segments → ∀ i, ∃ us rest, loopPassUses L host R i = .ok us ∧
        account held us = some rest ∧ ∀ x, x ∈ rest ↔ x ∈ held ∧ ∀ block, x ≠ .codec block) := by
  obtain ⟨uses, huses, hsettles⟩ := settles_of_run h
  obtain ⟨held, haccount, hheld⟩ := hsettles ∅ (by simp)
  refine ⟨uses, held, huses, haccount, hheld, ?_, (hheld _).mpr holds_socket, fun x => ?_,
    fun hdone i => ?_⟩
  · have hsub : held ⊆ R.candidates.toFinset := fun x hx =>
      List.mem_toFinset.mpr ((inv_of_run h).mem_candidates ((hheld x).mp hx))
    exact (Finset.card_le_card hsub).trans (List.toFinset_card_le _)
  · simpa using count_acquire haccount x
  · obtain ⟨rest, hrest, hmem⟩ := settles_freeMem R.codec_mem (R.SS.Holds R.out_fd) held hheld
    refine ⟨_, rest, if_pos hdone, hrest, fun x => ?_⟩
    refine (hmem x).trans (and_comm.trans ?_)
    rw [hheld]
    refine and_congr_left fun hne => ?_
    cases x with
    | codec block => exact absurd rfl (hne block)
    | cbstates | esi | hashEsi | symsBuf | outCbBuf | descriptor | socket => exact Iff.rfl

end

/-- Two files, received in part: the blocks of the second have been taken, and not given back. -/
theorem resources_balanced_tiny :
    ∃ (L : SegmentList) (t : List (Entry (Receiver Unit) Input Event)) (R : Receiver Unit)
      (uses : List (Use Owner)) (idx : Fin segstateSetN),
      t.map Entry.input = [recvInput (tinyDatagram 0), recvInput (tinyDatagram 1)] ∧
      Run (Receiver.Step L refusingHost) (Receiver.init refusingHost (-1)) t R ∧
      runUses L refusingHost t = .ok uses ∧
      uses.count (.acquire (.symsBuf idx 0)) = uses.count (.release (.symsBuf idx 0)) + 1 := by
  obtain ⟨t, R, hrun, hinputs, hctl⟩ := tiny_run refusingHost refusingHost (n := 2) (by decide)
    (L := tinyList 2) (-1) [0, 1] (by decide) (by decide)
  replace hrun := hrun.mono fun _ _ _ _ hs => hs.2.2
  have hmode : R.control.mode 1 = some .receiving := by
    rw [hctl]
    decide
  obtain ⟨S, hS, -⟩ := control_mode_eq_some.mp hmode
  obtain ⟨-, hinit, rfl⟩ := lookup_eq_some_iff.mp hS
  obtain ⟨uses, held, huses, -, hheld, -, -, hcount, -⟩ := resources_balanced hrun
  refine ⟨tinyList 2, t, R, uses, slotIndex R.SS 1, hinputs, hrun, huses, ?_⟩
  have hmem : .symsBuf (slotIndex R.SS 1) 0 ∈ held := by
    refine (hheld _).mpr ((holds_of_slot rfl).mpr ⟨hinit, le_rfl, ?_⟩)
    rw [(inv_of_run hrun).oneBlock hS]
    exact one_pos
  rw [hcount, if_pos hmem]

end RqRoute
