import RqRoute.Verification.Receiver.Invariant

/-! # Where a pass can stop at an assertion

Under the invariant the writing tasks always return, and a packet is refused only by the
checks on its own header and length, and on the mode of its segment. -/

namespace RqRoute

open Checked Segstateset Transition

variable {M : Type}

/-! ## Segments -/

theorem paramDeriv_eq_error {n : ℤ} {e : Fault} (h : paramDeriv n = .error e) :
    e = .paramDerivBlocks ∨ e = .paramDerivLarge ∨ e = .paramDerivTotal := by
  simp only [paramDeriv, bind_eq_error, check_eq_error, check_eq_ok] at h
  rcases h with ⟨-, rfl⟩ | ⟨_, -, ⟨-, rfl⟩ | ⟨_, -, ⟨-, rfl⟩ | ⟨_, -, h⟩⟩⟩
  · exact .inl rfl
  · exact .inr (.inl rfl)
  · exact .inr (.inr rfl)
  · cases h

/-- The check that `segstate_add_packet` stops at, and what is wrong with the packet. -/
theorem Segstate.Receives.addPacket_eq_error {S : Segstate} {file_nbr : ℤ} {file_len : ℕ}
    {kept : List (ℤ × List UInt8)} (h : S.Receives file_nbr file_len kept)
    {p : RouteHeader × List UInt8} {e : Fault} (herr : segstateAddPacket S p.1 p.2 = .error e) :
    (e = .addPacketToi ∧ (p.1.toi.toNat : ℤ) ≠ file_nbr) ∨
      (e = .addPacketTos ∧ p.1.tos.toNat ≠ file_len) ∨
      (e = .addPacketMode ∧ S.mode ≠ .receiving) ∨
      (e = .addSymPayloadSize ∧ 1024 < p.2.length) := by
  by_cases htoi : (p.1.toi.toNat : ℤ) = file_nbr
  · by_cases htos : p.1.tos.toNat = file_len
    · by_cases hmode : S.mode = .receiving
      · by_cases hlen : p.2.length ≤ 1024
        · obtain ⟨S', hadd, -⟩ := h.addPacket hmode ⟨htoi, htos, hlen⟩
          rw [hadd] at herr
          cases herr
        · obtain ⟨C, hC, hholds⟩ := h.block
          refine .inr (.inr (.inr ⟨?_, by omega⟩))
          rw [segstateAddPacket, check_bind (by rw [h.file_nbr_eq]; exact htoi),
            check_bind (by rw [h.file_len_eq]; exact htos), check_bind (by rw [h.P_eq]; rfl),
            check_bind (Nat.zero_le _), check_bind hmode, hC] at herr
          simp only [List.head?_cons, orElse_some, ok_bind, codeblockstateAddSym, hholds.T_eq,
            check, if_neg hlen, error_bind] at herr
          exact (Except.error.inj herr).symm
      · rw [segstateAddPacket, check_bind (by rw [h.file_nbr_eq]; exact htoi),
          check_bind (by rw [h.file_len_eq]; exact htos), check_bind (by rw [h.P_eq]; rfl),
          check_bind (Nat.zero_le _)] at herr
        simp only [check, if_neg hmode, error_bind] at herr
        exact .inr (.inr (.inl ⟨(Except.error.inj herr).symm, hmode⟩))
    · rw [segstateAddPacket, check_bind (by rw [h.file_nbr_eq]; exact htoi)] at herr
      simp only [check, h.file_len_eq, if_neg htos, error_bind] at herr
      exact .inr (.inl ⟨(Except.error.inj herr).symm, htos⟩)
  · rw [segstateAddPacket] at herr
    simp only [check, h.file_nbr_eq, if_neg htoi, error_bind] at herr
    exact .inl ⟨(Except.error.inj herr).symm, htoi⟩

/-- A packet for a segment that is no longer received is the end of the program. -/
theorem segstateAddPacket_late {S : Segstate} (hmode : S.mode ≠ .receiving)
    (header : RouteHeader) (payload : List UInt8) :
    ∃ e, segstateAddPacket S header payload = .error e ∧
      (e = .addPacketToi ∨ e = .addPacketTos ∨ e = .addPacketBlocks ∨ e = .addPacketPayloadId ∨
        e = .addPacketMode) := by
  cases hadd : segstateAddPacket S header payload with
  | ok S' => exact absurd (segstateAddPacket_eq_ok hadd).2.2.1 hmode
  | error e =>
      refine ⟨e, rfl, ?_⟩
      simp only [segstateAddPacket, bind_eq_error, check_eq_error, check_eq_ok] at hadd
      rcases hadd with ⟨-, rfl⟩ | ⟨_, -, ⟨-, rfl⟩ | ⟨_, -, ⟨-, rfl⟩ | ⟨_, -, ⟨-, rfl⟩ |
        ⟨_, -, ⟨-, rfl⟩ | ⟨_, hrec, -⟩⟩⟩⟩⟩
      · exact .inl rfl
      · exact .inr (.inl rfl)
      · exact .inr (.inr (.inl rfl))
      · exact .inr (.inr (.inr (.inl rfl)))
      · exact .inr (.inr (.inr (.inr rfl)))
      · exact absurd hrec hmode

/-! ## Tasks -/

namespace Receiver.Inv

variable {host : Host M} {R : Receiver M}

variable (host) in
theorem taskStartWrite_ok (h : R.Inv) (hfd : R.out_fd = -1) (opened : Option ℕ) :
    ∃ r, taskStartWrite host R.SS R.codec_mem opened = .ok r := by
  cases hS : R.SS.lookup R.SS.min_file_nbr with
  | none => exact ⟨_, taskStartWrite_none hS⟩
  | some S =>
      rw [taskStartWrite_some hS]
      split
      · exact ⟨_, rfl⟩
      · cases opened with
        | none => exact ⟨_, rfl⟩
        | some fd =>
            have hg := h.gathers_of_closed hfd hS
            obtain ⟨file_len, kept, hr⟩ := hg.receives
            obtain ⟨_, _, _, _, -, -, -, -, hprep, -⟩ :=
              hr.prepareOutput hg.out_fd_eq host fd R.codec_mem
            simp only [hprep, ok_bind]
            exact ⟨_, rfl⟩

variable (host) in
theorem taskWrite_ok (h : R.Inv) (hfd : R.out_fd ≠ -1) (taken opened : Option ℕ) :
    ∃ r, taskWrite host R.SS R.out_fd R.codec_mem taken opened = .ok r := by
  obtain ⟨S, hS, hd⟩ := h.drains hfd
  obtain ⟨file_len, offs, hwr⟩ := hd.writes
  obtain ⟨w, hwrite, -, hnbr, -⟩ :=
    hwr.writeMore (by rw [hd.out_fd_eq]; exact hfd) host R.codec_mem taken
  rw [taskWrite_some hS, hwrite, ok_bind]
  split
  · exact ⟨_, rfl⟩
  · obtain ⟨r, hr⟩ := (h.retire hS hwr.mode_eq hnbr).taskStartWrite_ok host rfl opened
    exact ⟨_, bind_eq_ok.mpr ⟨r, hr, rfl⟩⟩

variable (host) in
/-- A segment of an admissible length is always set up. -/
theorem initSegment_ok (h : R.Inv) {header : RouteHeader}
    (hin : R.SS.InWindow header.toi.toNat) (hnone : R.SS.lookup header.toi.toNat = none)
    (hsmall : SmallFile header.tos.toNat) (opened : Option ℕ) :
    ∃ x : Receiver M × List Event,
      initSegment host R (slotIndex R.SS header.toi.toNat) header opened = .ok x ∧
      x.1.SS.lookup header.toi.toNat =
        some (initialSegment host header.toi.toNat header.tos.toNat) ∧
      slotIndex x.1.SS header.toi.toNat = slotIndex R.SS header.toi.toNat := by
  have hself : (R.enter host header.toi.toNat header.tos.toNat).SS.lookup header.toi.toNat =
      some (initialSegment host header.toi.toNat header.tos.toNat) := by
    rw [lookup_enter host hin, if_pos rfl]
  rw [initSegment_eq hin hnone hsmall]
  by_cases hgo : (header.toi.toNat : ℤ) > R.recv_file_nbr ∧ R.write_ok ∧ R.out_fd = -1
  · have hfd : (R.enter host header.toi.toNat header.tos.toNat).out_fd = -1 := by
      rw [out_fd_enter, hgo.2.2]
    obtain ⟨r, hr⟩ := (h.enter host hin (by omega) hnone hsmall).taskStartWrite_ok
      host hfd opened
    obtain ⟨hlook, hslot⟩ := ((starts_iff hfd).mp ⟨r, hr, rfl, rfl⟩).lookup_receiving hself rfl
    rw [if_pos hgo]
    exact ⟨_, bind_eq_ok.mpr ⟨r, hr, rfl⟩, hlook, hslot.trans (slotIndex_enter ..)⟩
  · rw [if_neg hgo]
    exact ⟨_, rfl, hself, slotIndex_enter ..⟩

/-- What stops a packet: the length of a new segment, or a check on adding it. -/
theorem receivePacket_eq_error (h : R.Inv) {d : Datagram} {opened : Option ℕ} {e : Fault}
    (herr : receivePacket host R d opened = .error e) :
    (R.SS.lookup d.header.toi.toNat = none ∧ ¬SmallFile d.header.tos.toNat ∧
        paramDeriv (toInt d.header.tos.toNat) = .error e) ∨
      ∃ S, segstateAddPacket S d.header d.payload = .error e ∧
        (R.SS.lookup d.header.toi.toNat = some S ∨
          R.SS.lookup d.header.toi.toNat = none ∧ SmallFile d.header.tos.toNat ∧
            S = initialSegment host d.header.toi.toNat d.header.tos.toNat) := by
  by_cases hin : R.SS.InWindow d.header.toi.toNat
  · cases hS : R.SS.lookup d.header.toi.toNat with
    | some S =>
        rw [receivePacket_known hS, bind_eq_error] at herr
        rcases herr with herr | ⟨_, -, herr⟩
        · exact .inr ⟨S, herr, .inl rfl⟩
        · cases herr
    | none =>
        rw [receivePacket_unknown hin hS, bind_eq_error] at herr
        by_cases hsmall : SmallFile d.header.tos.toNat
        · obtain ⟨x, hx, hlook, hslot⟩ := h.initSegment_ok host hin hS hsmall opened
          refine .inr ⟨_, ?_, .inr ⟨rfl, hsmall, rfl⟩⟩
          rcases herr with herr | ⟨y, hy, herr⟩
          · rw [hx] at herr
            cases herr
          · obtain rfl := Except.ok.inj (hx.symm.trans hy)
            rw [← hslot, addToSegment_eq hlook] at herr
            simpa [bind_eq_error] using herr
        · obtain ⟨e', hP, he'⟩ := initSegment_error host R
            (slotIndex R.SS d.header.toi.toNat) opened hsmall
          rw [he'] at herr
          rcases herr with herr | ⟨y, hy, -⟩
          · cases herr
            exact .inl ⟨rfl, hsmall, hP⟩
          · cases hy
  · rw [receivePacket_outside hin] at herr
    cases herr

/-- The faults of a pass are those of receiving. -/
theorem loopPass_eq_error {L : SegmentList} (h : R.Inv) {i : Input} (hmay : R.MayReport i.sel)
    {e : Fault} (herr : loopPass L host R i = .error e) :
    nexttask R i.sel = .ok (some .recv) ∧
      ((∃ n, i.recv = .runt n ∧ e = .recvSize) ∨
        ∃ d, i.recv = .packet d ∧ receivePacket host R (cutDatagram d) i.opened = .error e) := by
  unfold loopPass at herr
  split at herr
  · cases herr
  · obtain ⟨task, htask⟩ := nexttask_ok hmay
    rw [htask, ok_bind] at herr
    rcases task with _ | _ | _ | _ | _
    · cases herr
    · refine ⟨htask, ?_⟩
      simp only at herr
      cases hrecv : i.recv with
      | error => rw [hrecv] at herr; cases herr
      | runt n =>
          rw [hrecv] at herr
          cases herr
          exact .inl ⟨n, rfl, rfl⟩
      | packet d =>
          rw [hrecv] at herr
          refine .inr ⟨d, rfl, ?_⟩
          cases hget : receivePacket host R (cutDatagram d) i.opened with
          | error e' =>
              simp only [hget] at herr
              cases herr
              rfl
          | ok x =>
              simp only [hget] at herr
              cases herr
    · obtain ⟨r, hr⟩ := h.taskWrite_ok host (nexttask_write htask) i.taken i.opened
      simp only [hr, ok_bind] at herr
      cases herr
    · obtain ⟨hfd, hst, -⟩ := nexttask_startWrite hmay htask
      obtain ⟨r, hr⟩ := (h.permit hst).taskStartWrite_ok host hfd i.opened
      simp only at hr
      simp only [hr, ok_bind] at herr
      cases herr
    · have hready := (nexttask_signalReady hmay htask).2
      rw [check_bind (Int.le_of_lt hready)] at herr
      cases herr

end Receiver.Inv

end RqRoute
