import RqRoute.Verification.Receiver.Late
import RqRoute.Verification.Receiver.Table

/-! # Streams in order are safe

The file numbers of a stream never go down. Then no datagram finds its segment released, however
long the writes take and whatever fails in between, and none is turned away but by a full
ring. -/

namespace RqRoute

open Checked Segstateset Transition

variable {M N : Type}

/-- A step of the receiver, with the datagrams that are still under way. They arrive in their
order; when they do, and whether files can be opened and written, is left open. -/
def StreamStep (L : SegmentList) (host : Host M) (s : Receiver M × List Datagram) (i : Input)
    (s' : Receiver M × List Datagram) (es : List Event) : Prop :=
  s.1.Step L host i s'.1 es ∧
    if nexttask s.1 i.sel = .ok (some .recv) then ∃ d, i.recv = .packet d ∧ s.2 = d :: s'.2
    else s'.2 = s.2

/-- What is received is the next datagram of the stream. -/
def Receiver.TakesNext (R : Receiver M) (ds : List Datagram) (i : Input) : Prop :=
  nexttask R i.sel = .ok (some .recv) → ∃ d ds', ds = d :: ds' ∧ i.recv = .packet d

section
variable {L : SegmentList} {host : Host M} {R R' : Receiver M} {i : Input} {es : List Event}

/-- The newest file stays, or becomes that of the datagram. -/
theorem Receiver.Gets.recv_eq {d : Datagram} {opened : Option ℕ} (h : R.Gets host d opened es R') :
    R'.recv_file_nbr = R.recv_file_nbr ∨
      R'.recv_file_nbr = max R.recv_file_nbr d.header.toi.toNat := by
  cases h with
  | outside | known => exact .inl rfl
  | first => exact .inr (recv_enter ..)
  | newest _ _ _ _ _ _ hstart => exact .inr (hstart.frame.2.1.trans (recv_enter ..))

/-- A pass that receives nothing sees no newer file. -/
theorem Receiver.Step.recv_eq (hs : R.Step L host i R' es)
    (hno : nexttask R i.sel ≠ .ok (some .recv)) : R'.recv_file_nbr = R.recv_file_nbr := by
  obtain ⟨-, -, hpass⟩ := step_iff.mp hs
  cases hpass with
  | recv htask => exact absurd htask hno
  | write _ hwrites =>
      cases hwrites with
      | more => rfl
      | last _ _ _ hstart => exact hstart.frame.2.1
  | startWrite _ hstarts => exact hstarts.frame.2.1
  | signalReady => rfl

/-- The invariants of a stream in order. -/
structure Receiver.Follows (files : List (List UInt8)) (R : Receiver M) (ds : List Datagram) :
    Prop where
  inv : R.Inv
  carries : R.Carries files
  min_le : R.SS.min_file_nbr ≤ max R.recv_file_nbr 0
  genuine : ∀ d ∈ ds, Genuine files d
  sorted : ds.Pairwise fun d e => d.header.toi.toNat ≤ e.header.toi.toNat
  ahead : ∀ d ∈ ds, R.recv_file_nbr ≤ d.header.toi.toNat

namespace Receiver.Follows

variable {files : List (List UInt8)} {ds ds' : List Datagram} {d : Datagram}

theorem min_le_step (h : R.Follows files ds) (hs : R.Step L host i R' es)
    (hgrows : R.recv_file_nbr ≤ R'.recv_file_nbr) :
    R'.SS.min_file_nbr ≤ max R'.recv_file_nbr 0 := by
  have hmin := h.min_le
  rcases hs.min_file_nbr h.inv with heq | ⟨heq, htask, -⟩
  · omega
  · obtain ⟨S, hS, hd⟩ := h.inv.drains (nexttask_write htask)
    have holder := h.inv.older _ S hS (by simp [hd.mode_eq])
    omega

/-- The next datagram of the stream never comes too late. -/
theorem not_tooLate (h : R.Follows files (d :: ds)) : ¬R.TooLate d := by
  rintro ⟨S, hS, hmode⟩
  have holder := h.inv.older _ S hS hmode
  have hahead := h.ahead d List.mem_cons_self
  omega

theorem receive (h : R.Follows files (d :: ds)) (hs : R.Step L host i R' es)
    (htask : nexttask R i.sel = .ok (some .recv)) (hpkt : i.recv = .packet d) :
    R'.Follows files ds := by
  have hd := h.genuine d List.mem_cons_self
  have hahead := h.ahead d List.mem_cons_self
  obtain ⟨hnext, hsorted⟩ := List.pairwise_cons.mp h.sorted
  have hrecv : R'.recv_file_nbr = R.recv_file_nbr ∨
      R'.recv_file_nbr = max R.recv_file_nbr d.header.toi.toNat := by
    obtain ⟨-, -, hpass⟩ := step_iff.mp hs
    cases hpass with
    | recv _ hpkt' hgets =>
        cases hpkt.symm.trans hpkt'
        rw [hd.cutDatagram_eq] at hgets
        exact hgets.recv_eq
    | write htask' | startWrite htask' | signalReady htask' => cases htask.symm.trans htask'
  refine ⟨h.inv.step hs, h.carries.step (fun e _ hpkt' => ?_) hs, h.min_le_step hs (by omega),
    fun e he => h.genuine e (List.mem_cons_of_mem _ he), hsorted, fun e he => ?_⟩
  · cases hpkt.symm.trans hpkt'
    exact hd
  · have := hnext e he
    omega

theorem other (h : R.Follows files ds) (hs : R.Step L host i R' es)
    (hno : nexttask R i.sel ≠ .ok (some .recv)) : R'.Follows files ds := by
  have hrecv := hs.recv_eq hno
  exact ⟨h.inv.step hs, h.carries.step (fun _ htask => absurd htask hno) hs,
    h.min_le_step hs hrecv.ge, h.genuine, h.sorted, fun e he => hrecv.symm ▸ h.ahead e he⟩

/-- A pass that takes the next datagram does not stop. -/
theorem loopPass_ne_error (h : R.Follows files ds) (hmay : R.MayReport i.sel)
    (hnext : R.TakesNext ds i) (e : Fault) : loopPass L host R i ≠ .error e := by
  intro herr
  obtain ⟨htask, hrecv⟩ := h.inv.loopPass_eq_error hmay herr
  obtain ⟨d, ds', rfl, hpkt⟩ := hnext htask
  have hd := h.genuine d List.mem_cons_self
  rcases hrecv with ⟨n, hrunt, -⟩ | ⟨d', hpkt', hget⟩
  · cases hpkt.symm.trans hrunt
  · cases hpkt.symm.trans hpkt'
    rw [hd.cutDatagram_eq] at hget
    obtain ⟨x, hx⟩ := h.inv.receivePacket_ok host h.carries hd h.not_tooLate i.opened
    cases hx.symm.trans hget

/-- The next datagram reaches its segment unless that lies beyond the ring. -/
theorem accepted_iff (h : R.Follows files (d :: ds)) (hs : R.Step L host i R' es)
    (htask : nexttask R i.sel = .ok (some .recv)) (hpkt : i.recv = .packet d) :
    .accepted d.header.toi.toNat d ∈ es ↔
      d.header.toi.toNat < R.SS.min_file_nbr + segstateSetN := by
  have hd := h.genuine d List.mem_cons_self
  have hmin := h.min_le
  have hahead := h.ahead d List.mem_cons_self
  obtain ⟨-, -, hpass⟩ := step_iff.mp hs
  cases hpass with
  | recv _ hpkt' hgets =>
      cases hpkt.symm.trans hpkt'
      rw [hd.cutDatagram_eq] at hgets
      cases hgets with
      | outside hout =>
          rw [inWindow_iff] at hout
          exact iff_of_false List.not_mem_nil fun hlt => hout ⟨by omega, hlt⟩
      | known hS =>
          exact iff_of_true List.mem_cons_self (inWindow_iff.mp (lookup_inWindow hS)).2
      | first hin => exact iff_of_true List.mem_cons_self (inWindow_iff.mp hin).2
      | newest hin => exact iff_of_true (by simp) (inWindow_iff.mp hin).2
  | write htask' | startWrite htask' | signalReady htask' => cases htask.symm.trans htask'

end Receiver.Follows

theorem follows_of_run {sender : Host N} {files : List (List UInt8)}
    (hlen : files.length ≤ 65536) (hsmall : SmallFiles files) {ready_fd : ℤ}
    {ds₀ : List Datagram} (hsent : ∀ d ∈ ds₀, Sent sender files d)
    (hsorted : ds₀.Pairwise fun d e => d.header.toi.toNat ≤ e.header.toi.toNat)
    {t : List (Entry (Receiver M × List Datagram) Input Event)} {s : Receiver M × List Datagram}
    (h : Run (StreamStep L host) (Receiver.init host ready_fd, ds₀) t s) :
    s.1.Follows files s.2 := by
  refine h.invariant (P := fun s => s.1.Follows files s.2) ?_ ?_
  · refine ⟨inv_init host ready_fd, fun f S hS => ?_, le_max_right _ _,
      fun d hd => (hsent d hd).genuine hlen hsmall, hsorted, fun d _ => ?_⟩
    · simp [Receiver.init] at hS
    · change (-1 : ℤ) ≤ _
      omega
  · rintro ⟨R, ds⟩ i ⟨R', ds'⟩ es hfollows ⟨hstep, hstream⟩
    split at hstream
    · rename_i htask
      obtain ⟨d, hpkt, rfl⟩ := hstream
      exact hfollows.receive hstep htask hpkt
    · rename_i hno
      obtain rfl := hstream
      exact hfollows.other hstep hno

/-- However the receptions interleave with timeouts and writes, and whatever opens and writes
fail: a stream whose file numbers never go down does not stop the receiver at an assertion, and
a datagram of it is turned away exactly when its file is four or more ahead of the window. -/
theorem in_order_never_aborts {sender : Host N} {files : List (List UInt8)}
    (hlen : files.length ≤ 65536) (hsmall : SmallFiles files) {ready_fd : ℤ}
    {ds₀ ds : List Datagram} (hsent : ∀ d ∈ ds₀, Sent sender files d)
    (hsorted : ds₀.Pairwise fun d e => d.header.toi.toNat ≤ e.header.toi.toNat)
    {t : List (Entry (Receiver M × List Datagram) Input Event)}
    (h : Run (StreamStep L host) (Receiver.init host ready_fd, ds₀) t (R, ds)) :
    (∀ i, R.MayReport i.sel → R.TakesNext ds i → ∀ e, loopPass L host R i ≠ .error e) ∧
      ∀ d ds' i R' es, ds = d :: ds' → R.Step L host i R' es →
        nexttask R i.sel = .ok (some .recv) → i.recv = .packet d →
        (.accepted d.header.toi.toNat d ∈ es ↔
          d.header.toi.toNat < R.SS.min_file_nbr + segstateSetN) := by
  have hfollows : R.Follows files ds := follows_of_run hlen hsmall hsent hsorted h
  refine ⟨fun i hmay hnext e => hfollows.loopPass_ne_error hmay hnext e, ?_⟩
  rintro d ds' i R' es rfl hs htask hpkt
  exact hfollows.accepted_iff hs htask hpkt

end

/-- The first packet of a stream of two has arrived; the second one is taken too. -/
theorem in_order_never_aborts_tiny :
    ∃ (t : List (Entry (Receiver Unit × List Datagram) Input Event)) (R : Receiver Unit),
      Run (StreamStep (tinyList 2) refusingHost)
        (Receiver.init refusingHost (-1), [tinyDatagram 0, tinyDatagram 1]) t
        (R, [tinyDatagram 1]) ∧ t.map Entry.input = [recvInput (tinyDatagram 0)] ∧
      ∀ e, loopPass (tinyList 2) refusingHost R (recvInput (tinyDatagram 1)) ≠ .error e := by
  have hsent : ∀ d ∈ [tinyDatagram 0, tinyDatagram 1], Sent refusingHost (tinyFiles 2) d := by
    intro d hd
    rcases List.mem_pair.mp hd with rfl | rfl
    · exact sent_tinyDatagram refusingHost (by decide)
    · exact sent_tinyDatagram refusingHost (by decide)
  have hgenuine : Genuine (tinyFiles 2) (tinyDatagram 0) :=
    (hsent _ List.mem_cons_self).genuine (by decide) (smallFiles_tiny 2)
  obtain ⟨R, es, hstep, -⟩ := (inv_init refusingHost (-1)).exists_recv refusingHost
    (L := tinyList 2) (fun f S hS => by simp [Receiver.init] at hS) hgenuine
    (by rw [tooLate_iff, Receiver.init]; simp [Receiver.control]) (by decide)
  have hrun : Run (StreamStep (tinyList 2) refusingHost)
      (Receiver.init refusingHost (-1), [tinyDatagram 0, tinyDatagram 1]) _ (R, [tinyDatagram 1]) :=
    .snoc .nil ⟨hstep, by rw [if_pos (nexttask_recvInput ..)]; exact ⟨_, rfl, rfl⟩⟩
  exact ⟨_, R, hrun, rfl, (in_order_never_aborts (by decide) (smallFiles_tiny 2) hsent (by decide)
    hrun).1 _ (mayReport_recvInput ..) fun _ => ⟨_, _, rfl, rfl⟩⟩

end RqRoute
