import RqRoute.Verification.Receiver.Late
import RqRoute.Verification.Receiver.Table

/-! # Whatever arrives on the socket

The port is open to everybody. Which datagrams stop the receiver can be told from the datagram
and from the segment it names; and nothing that arrives makes the program leave its memory, but
for the entry past the end of the segment table. -/

namespace RqRoute

open Checked Segstateset Transition

variable {M N : Type}

/-- The check of `segstate_add_packet` that stops at a datagram of the segment, if there is
one. -/
def segmentRefusal (S : Segstate) (d : Datagram) : Option Fault :=
  if d.header.tos.toNat ≠ S.file_len then some .addPacketTos
  else if S.mode ≠ .receiving then some .addPacketMode
  else if 1024 < d.payload.length then some .addSymPayloadSize
  else none

/-- The check that stops at a datagram, if there is one. -/
def Receiver.refusal (R : Receiver M) (d : Datagram) : Option Fault :=
  match R.SS.lookup d.header.toi.toNat with
  | some S => segmentRefusal S d
  | none =>
    if ¬R.SS.InWindow d.header.toi.toNat then none
    else match paramDeriv (toInt d.header.tos.toNat) with
      | .error e => some e
      | .ok _ => if 1024 < d.payload.length then some .addSymPayloadSize else none

/-- The accesses and the products that the language leaves undefined, and the loop without an
end. -/
def Fault.Undefined (e : Fault) : Prop :=
  e = .outOfBounds ∨ e = .nullPointer ∨ e = .intOverflow ∨ e = .endlessLoop

theorem not_undefined_of_paramDeriv {n : ℤ} {e : Fault} (h : paramDeriv n = .error e) :
    ¬e.Undefined := by
  rcases paramDeriv_eq_error h with rfl | rfl | rfl <;> simp [Fault.Undefined]

theorem Receiver.not_undefined_of_refusal {R : Receiver M} {d : Datagram} {e : Fault}
    (h : R.refusal d = some e) : ¬e.Undefined := by
  unfold Receiver.refusal at h
  split at h
  · unfold segmentRefusal at h
    repeat' split at h
    all_goals cases h
    all_goals simp [Fault.Undefined]
  · split at h
    · cases h
    · split at h
      · rename_i hP
        cases h
        exact not_undefined_of_paramDeriv hP
      · split at h
        · cases h
          simp [Fault.Undefined]
        · cases h

/-! ## Segments -/

/-- A segment that bears the number of the datagram refuses it for these reasons only. -/
theorem segstateAddPacket_eq_error_iff {S : Segstate} {d : Datagram}
    (htoi : (d.header.toi.toNat : ℤ) = S.file_nbr) (hcb : S.P.n_cb = 1)
    (hrec : S.mode = .receiving → ∃ file_len kept, S.Receives S.file_nbr file_len kept)
    (e : Fault) :
    segstateAddPacket S d.header d.payload = .error e ↔ segmentRefusal S d = some e := by
  have hcheck : segstateAddPacket S d.header d.payload = do
      check (d.header.tos.toNat = S.file_len) Fault.addPacketTos
      check (S.mode = .receiving) Fault.addPacketMode
      let C ← orElse S.cbstates.head? Fault.outOfBounds
      let C ← codeblockstateAddSym C (symbId S.P d.header) d.payload
      return { S with cbstates := C :: S.cbstates.tail } := by
    rw [segstateAddPacket, check_bind htoi]
    by_cases htos : d.header.tos.toNat = S.file_len
    · rw [check_bind htos, check_bind hcb, check_bind (Nat.zero_le _), check_bind htos]
    · simp only [check, if_neg htos, error_bind]
  unfold segmentRefusal
  by_cases htos : d.header.tos.toNat = S.file_len
  · rw [if_neg (not_not.mpr htos)]
    by_cases hmode : S.mode = .receiving
    · rw [if_neg (not_not.mpr hmode)]
      obtain ⟨file_len, kept, hr⟩ := hrec hmode
      by_cases hlen : 1024 < d.payload.length
      · rw [if_pos hlen]
        cases hadd : segstateAddPacket S d.header d.payload with
        | ok S' =>
            obtain ⟨-, hp⟩ := hr.of_addPacket (p := (d.header, d.payload)) hadd
            exact absurd hp.payload (by simpa using hlen)
        | error e' =>
            have htoo : e' = .addSymPayloadSize := by
              rcases hr.addPacket_eq_error (p := (d.header, d.payload)) hadd with
                ⟨-, hne⟩ | ⟨-, hne⟩ | ⟨-, hne⟩ | ⟨heq, -⟩
              · exact absurd htoi hne
              · exact absurd (htos.trans hr.file_len_eq) hne
              · exact absurd hmode hne
              · exact heq
            simp [htoo]
      · rw [if_neg hlen]
        obtain ⟨S', hadd, -⟩ := hr.addPacket (p := (d.header, d.payload)) hmode
          ⟨htoi, htos.trans hr.file_len_eq, by simpa using hlen⟩
        rw [hadd]
        simp
    · rw [if_pos hmode, hcheck, check_bind htos]
      simp only [check, if_neg hmode, error_bind, Except.error.injEq, Option.some.injEq]
  · rw [if_pos htos, hcheck]
    simp only [check, if_neg htos, error_bind, Except.error.injEq, Option.some.injEq]

/-! ## The receiver -/

/-- The segments of the window bear their own numbers. -/
theorem Receiver.Inv.addPacket_refusal {R : Receiver M} (h : R.Inv) {d : Datagram} {S : Segstate}
    (hS : R.SS.lookup d.header.toi.toNat = some S) (e : Fault) :
    segstateAddPacket S d.header d.payload = .error e ↔ segmentRefusal S d = some e := by
  have hnbr := h.placed.file_nbr hS
  refine segstateAddPacket_eq_error_iff hnbr.symm ?_ (fun hmode => ?_) e
  · rcases h.segs _ S hS with hg | ⟨-, hdr⟩
    · obtain ⟨_, _, hr⟩ := hg.receives
      rw [hr.P_eq]
      rfl
    · obtain ⟨_, _, hw⟩ := hdr.writes
      rw [hw.P_eq]
      rfl
  · rw [hnbr]
    exact (h.gathers hS (by simp [hmode])).receives

/-- The first datagram of a segment of an admissible length may still be too long itself. -/
theorem initialSegment_refusal (host : Host M) {d : Datagram}
    (hsmall : SmallFile d.header.tos.toNat) (e : Fault) :
    segstateAddPacket (initialSegment host d.header.toi.toNat d.header.tos.toNat) d.header
        d.payload = .error e ↔
      (if 1024 < d.payload.length then some Fault.addSymPayloadSize else none) = some e := by
  have hr := receives_initialSegment host d.header.toi.toNat hsmall
  rw [segstateAddPacket_eq_error_iff (S := initialSegment host _ _) rfl rfl fun _ => ⟨_, _, hr⟩]
  simp [segmentRefusal, initialSegment]

/-- A datagram is refused for the reason that can be told beforehand. -/
theorem Receiver.Inv.receivePacket_refusal {R : Receiver M} (h : R.Inv) (host : Host M)
    (d : Datagram) (opened : Option ℕ) (e : Fault) :
    receivePacket host R d opened = .error e ↔ R.refusal d = some e := by
  unfold Receiver.refusal
  cases hS : R.SS.lookup d.header.toi.toNat with
  | some S =>
      rw [← h.addPacket_refusal hS, receivePacket_known hS, bind_eq_error]
      simp
  | none =>
      by_cases hin : R.SS.InWindow d.header.toi.toNat
      · rw [receivePacket_unknown hin hS, bind_eq_error]
        simp only [hin, not_true_eq_false, if_false]
        by_cases hsmall : SmallFile d.header.tos.toNat
        · have hP := paramDeriv_of_small hsmall.bounds.1 hsmall.bounds.2
          obtain ⟨x, hx, hlook, hslot⟩ := h.initSegment_ok host hin hS hsmall opened
          rw [hsmall.toInt_eq, hP, ← initialSegment_refusal host hsmall, hx, ← hslot]
          simp [bind_eq_error, addToSegment_eq hlook]
        · obtain ⟨e', hP, he'⟩ := initSegment_error host R
            (slotIndex R.SS d.header.toi.toNat) opened hsmall
          rw [hP, he']
          simp
      · rw [receivePacket_outside hin]
        simp [hin]

/-- In every state of every run, whatever came before: a pass is stopped exactly by a datagram
that is shorter than a header, or by one that is refused for the reason that can be told from it
and from the segment it names; and the reason is never an access outside the memory, an
overflow in the hash of a symbol or a loop without an end. A pass that is not stopped reads past
the end of the segment table exactly when it is the write that ends the last segment of the list
while the next one is released. -/
theorem stopped_iff_refused {L : SegmentList} {host : Host M} {ready_fd : ℤ} {R : Receiver M}
    {t : List (Entry (Receiver M) Input Event)}
    (h : Run (Receiver.Step L host) (Receiver.init host ready_fd) t R) {i : Input}
    (hmay : R.MayReport i.sel) (e : Fault) :
    (loopPass L host R i = .error e ↔
      R.SS.min_file_nbr ≠ L.n_segments ∧ nexttask R i.sel = .ok (some .recv) ∧
        ((∃ n, i.recv = .runt n) ∧ e = .recvSize ∨
          ∃ d, i.recv = .packet d ∧ R.refusal (cutDatagram d) = some e)) ∧
      (loopPass L host R i = .error e → ¬e.Undefined) ∧
      ∀ R' es, loopPass L host R i = .ok (some (R', es)) → 1 ≤ L.n_segments →
        (InTable L.n_segments es ↔ ¬R.Overrun L.n_segments i) := by
  have hinv := inv_of_run h
  have hiff : loopPass L host R i = .error e ↔
      R.SS.min_file_nbr ≠ L.n_segments ∧ nexttask R i.sel = .ok (some .recv) ∧
        ((∃ n, i.recv = .runt n) ∧ e = .recvSize ∨
          ∃ d, i.recv = .packet d ∧ R.refusal (cutDatagram d) = some e) := by
    constructor
    · intro herr
      have hmin : R.SS.min_file_nbr ≠ L.n_segments := by
        intro hdone
        rw [loopPass, segstatesetGetMinFileNbr, if_pos hdone] at herr
        cases herr
      refine ⟨hmin, ?_⟩
      obtain ⟨htask, ⟨n, hrunt, he⟩ | ⟨d, hpkt, hget⟩⟩ := hinv.loopPass_eq_error hmay herr
      · exact ⟨htask, .inl ⟨⟨n, hrunt⟩, he⟩⟩
      · exact ⟨htask, .inr ⟨d, hpkt, (hinv.receivePacket_refusal host _ _ e).mp hget⟩⟩
    · rintro ⟨hmin, htask, ⟨⟨n, hrunt⟩, rfl⟩ | ⟨d, hpkt, href⟩⟩
      · rw [loopPass, segstatesetGetMinFileNbr, if_neg hmin, htask, ok_bind, hrunt]
      · rw [loopPass, segstatesetGetMinFileNbr, if_neg hmin, htask, ok_bind, hpkt]
        simp only [(hinv.receivePacket_refusal host _ i.opened e).mpr href]
        rfl
  refine ⟨hiff, fun herr => ?_, fun R' es hpass hL => ?_⟩
  · obtain ⟨-, -, ⟨-, rfl⟩ | ⟨d, -, href⟩⟩ := hiff.mp herr
    · simp [Fault.Undefined]
    · exact Receiver.not_undefined_of_refusal href
  · exact hinv.inTable_iff (min_le_of_run hL h) ⟨hmay, hpass⟩

/-- The first datagram that ever arrives claims a file of no bytes. -/
theorem stopped_iff_refused_empty :
    loopPass (tinyList 1) refusingHost (Receiver.init refusingHost (-1))
        (recvInput
          { header := { ens_id := 0, toi := 0, payload_id := 0, tos := 0 }, payload := [] }) =
      .error .paramDerivBlocks := by
  refine (stopped_iff_refused .nil (mayReport_recvInput ..) _).1.mpr
    ⟨by decide, rfl, .inr ⟨_, rfl, ?_⟩⟩
  decide

end RqRoute
