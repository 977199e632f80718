import RqRoute.Verification.Codec.Contract
import RqRoute.Verification.Receiver.Progress

/-! # Packets that come too late

A packet of a segment that has been released for writing, and has not left the window yet,
runs into an assertion. Nothing else that a playlist sends does. -/

namespace RqRoute

open Checked Segstateset Transition

variable {M N : Type}

/-- The pass receives a packet of a segment of the window that is released or written. -/
def Receiver.ReceivesLate (R : Receiver M) (i : Input) : Prop :=
  nexttask R i.sel = .ok (some .recv) ∧ ∃ d, i.recv = .packet d ∧ R.TooLate d

/-- Under traffic of a playlist, in every state that is reached, a pass stops at an
assertion exactly when it receives a packet that comes too late; the assertion is the one
on the mode of the segment. -/
theorem abort_iff_receivesLate {sender : Host N} {host : Host M} {files : List (List UInt8)}
    (hlen : files.length ≤ 65536) (hsmall : SmallFiles files) {L : SegmentList}
    (hL : L.n_segments = files.length) {ready_fd : ℤ} {R : Receiver M}
    {t : List (Entry (Receiver M) Input Event)}
    (h : Run (PlaylistStep sender files L host) (Receiver.init host ready_fd) t R) {i : Input}
    (hmay : R.MayReport i.sel) (hfrom : R.FromPlaylist sender files i) (e : Fault) :
    loopPass L host R i = .error e ↔ e = .addPacketMode ∧ R.ReceivesLate i := by
  obtain ⟨hinv, hcar⟩ := carries_of_run hlen hsmall h
  constructor
  · intro herr
    obtain ⟨htask, ⟨n, hrunt, -⟩ | ⟨d, hpkt, herr⟩⟩ := hinv.loopPass_eq_error hmay herr
    · rcases hfrom htask with hrecv | ⟨d, -, hrecv⟩
      · rw [hrunt] at hrecv
        cases hrecv
      · rw [hrunt] at hrecv
        cases hrecv
    · have hd := hfrom.genuine hlen hsmall htask hpkt
      rw [hd.cutDatagram_eq] at herr
      by_cases hlate : R.TooLate d
      · rw [hinv.receivePacket_late hcar hd hlate] at herr
        cases herr
        exact ⟨rfl, htask, d, hpkt, hlate⟩
      · obtain ⟨x, hx⟩ := hinv.receivePacket_ok host hcar hd hlate i.opened
        rw [hx] at herr
        cases herr
  · rintro ⟨rfl, htask, d, hpkt, hlate⟩
    have hd := hfrom.genuine hlen hsmall htask hpkt
    have hmin : R.SS.min_file_nbr ≠ L.n_segments := by
      obtain ⟨S, hS, -⟩ := hlate
      have := hinv.min_lt hcar (hinv.started_of_lookup hS)
      omega
    exact hinv.loopPass_late hcar hd hlate hmin htask hpkt

/-- Two files of one byte: the packet of the first one comes once more after that of the
second. -/
theorem late_packet_aborts :
    ∃ (L : SegmentList) (t : List (Entry (Receiver Unit) Input Event)) (R : Receiver Unit),
      L.n_segments = 2 ∧
      Run (PlaylistStep refusingHost (tinyFiles 2) L refusingHost)
        (Receiver.init refusingHost (-1)) t R ∧
      t.map Entry.input = [recvInput (tinyDatagram 0), recvInput (tinyDatagram 1)] ∧
      R.MayReport (recvInput (tinyDatagram 0)).sel ∧
      Sent refusingHost (tinyFiles 2) (tinyDatagram 0) ∧
      loopPass L refusingHost R (recvInput (tinyDatagram 0)) = .error .addPacketMode := by
  obtain ⟨t, R, hrun, hinputs, hctl⟩ := tiny_run refusingHost refusingHost (n := 2) (by decide)
    (L := tinyList 2) (-1) [0, 1] (by decide) (by decide)
  replace hrun := hrun.mono fun _ _ _ _ hs => hs.2
  obtain ⟨hinv, hcar⟩ := carries_of_run (by decide) (smallFiles_tiny 2) hrun
  have hsent := sent_tinyDatagram refusingHost (n := 2) (f := 0) (by decide)
  have hgen := hsent.genuine (by decide) (smallFiles_tiny 2)
  have hmin : R.SS.min_file_nbr = 0 := congrArg Control.min hctl
  refine ⟨tinyList 2, t, R, rfl, hrun, hinputs, mayReport_recvInput R _, hsent, ?_⟩
  refine hinv.loopPass_late hcar hgen ?_ (by rw [hmin]; decide) (nexttask_recvInput R _) rfl
  rw [tooLate_iff, hctl, toi_tinyDatagram (by decide)]
  decide

/-- The equivalence at the state of the run above. -/
theorem abort_iff_receivesLate_tiny :
    ∃ R : Receiver Unit, R.control = (Control.init.get 0).get 1 ∧ ∀ e,
      loopPass (tinyList 2) refusingHost R (recvInput (tinyDatagram 0)) = .error e ↔
        e = .addPacketMode ∧ R.ReceivesLate (recvInput (tinyDatagram 0)) := by
  obtain ⟨t, R, hrun, -, hctl⟩ := tiny_run refusingHost refusingHost (n := 2) (by decide)
    (L := tinyList 2) (-1) [0, 1] (by decide) (by decide)
  exact ⟨R, hctl, abort_iff_receivesLate (by decide) (smallFiles_tiny 2) rfl
    (hrun.mono fun _ _ _ _ hs => hs.2) (mayReport_recvInput R _)
    fun _ => .inr ⟨_, sent_tinyDatagram refusingHost (by decide), rfl⟩⟩

end RqRoute
