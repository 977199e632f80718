import RqRoute.Verification.Codec.Contract
import RqRoute.Verification.Receiver.Progress

/-! # The writer and the window

What the invariant says of the slots of the ring, and of the largest file number that was
ever accepted. -/

namespace RqRoute

open Checked Segstateset Transition

variable {M : Type}

/-! ## The numbers accepted -/

/-- The numbers of the segments that packets were added to. -/
def acceptedNbrs (es : List Event) : List ℤ :=
  es.filterMap fun
    | .accepted f _ => some f
    | _ => none

@[simp] theorem acceptedNbrs_append (es es' : List Event) :
    acceptedNbrs (es ++ es') = acceptedNbrs es ++ acceptedNbrs es' := List.filterMap_append

theorem Receiver.Starts.acceptedNbrs {host : Host M} {R R' : Receiver M} {opened : Option ℕ}
    {es : List Event} (h : R.Starts host opened es R') : acceptedNbrs es = [] := by
  cases h <;> rfl

theorem Receiver.Writes.acceptedNbrs {host : Host M} {R R' : Receiver M}
    {taken opened : Option ℕ} {es : List Event} (h : R.Writes host taken opened es R') :
    acceptedNbrs es = [] ∧ R'.recv_file_nbr = R.recv_file_nbr ∧ R'.started = R.started := by
  cases h with
  | more => exact ⟨rfl, rfl, rfl⟩
  | last _ _ _ hstart =>
      rw [acceptedNbrs_append, hstart.acceptedNbrs, hstart.frame.2.1, hstart.frame.2.2.1]
      exact ⟨rfl, rfl, rfl⟩

/-- A pass accepts at most one packet, and keeps the largest number. -/
theorem Receiver.Inv.step_accepted {L : SegmentList} {host : Host M} {R R' : Receiver M}
    {i : Input} {es : List Event} (h : R.Inv) (hs : R.Step L host i R' es) :
    (acceptedNbrs es = [] ∧ R'.recv_file_nbr = R.recv_file_nbr ∧ R'.started = R.started) ∨
      ∃ f, 0 ≤ f ∧ acceptedNbrs es = [f] ∧ R'.recv_file_nbr = max R.recv_file_nbr f ∧
        R'.started = true := by
  obtain ⟨-, -, hpass⟩ := step_iff.mp hs
  cases hpass with
  | recv _ _ hgets =>
      cases hgets with
      | outside => exact .inl ⟨rfl, rfl, rfl⟩
      | known hS =>
          have hle := h.le_recv _ _ hS
          refine .inr ⟨_, by omega, rfl, (max_eq_left hle).symm, ?_⟩
          by_contra hno
          rw [(h.unstarted (by simpa using hno)).2] at hS
          cases hS
      | first => exact .inr ⟨_, by omega, rfl, recv_enter .., started_enter ..⟩
      | newest _ _ _ _ _ _ hstart =>
          refine .inr ⟨_, by omega, ?_, hstart.frame.2.1.trans (recv_enter ..),
            hstart.frame.2.2.1.trans (started_enter ..)⟩
          rw [acceptedNbrs_append, hstart.acceptedNbrs]
          rfl
  | write _ hwrites => exact .inl hwrites.acceptedNbrs
  | startWrite _ hstarts =>
      exact .inl ⟨hstarts.acceptedNbrs, hstarts.frame.2.1, hstarts.frame.2.2.1⟩
  | signalReady => exact .inl ⟨rfl, rfl, rfl⟩

/-- What is known of the largest number accepted. -/
def Receiver.Newest (R : Receiver M) (accepted : List ℤ) : Prop :=
  (R.started = true ↔ accepted ≠ []) ∧
    (accepted ≠ [] → R.recv_file_nbr ∈ accepted ∧ ∀ f ∈ accepted, f ≤ R.recv_file_nbr)

theorem newest_of_run {L : SegmentList} {host : Host M} {ready_fd : ℤ} {R : Receiver M}
    {t : List (Entry (Receiver M) Input Event)}
    (h : Run (Receiver.Step L host) (Receiver.init host ready_fd) t R) :
    R.Newest (acceptedNbrs (events t)) := by
  induction h with
  | nil => exact ⟨by simp [Receiver.init, acceptedNbrs], by simp [acceptedNbrs]⟩
  | @snoc t R R' i es hrun hstep ih =>
      have hinv := inv_of_run hrun
      rw [events_append, events_singleton, acceptedNbrs_append]
      rcases hinv.step_accepted hstep with ⟨hes, hrecv, hst⟩ | ⟨f, hf, hes, hrecv, hst⟩
      · rw [hes, List.append_nil]
        exact ⟨hst ▸ ih.1, hrecv ▸ ih.2⟩
      · refine ⟨by simp [hst, hes], fun _ => ?_⟩
        rw [hes, hrecv]
        by_cases hold : acceptedNbrs (events t) = []
        · have hun : R.started = false := by
            by_contra hno
            exact ih.1.mp (by simpa using hno) hold
          rw [hold, (hinv.unstarted hun).1, max_eq_right (by omega)]
          simp
        · obtain ⟨hmem, hle⟩ := ih.2 hold
          constructor
          · rcases Int.le_total f R.recv_file_nbr with hlt | hlt
            · rw [max_eq_left hlt]
              exact List.mem_append_left _ hmem
            · rw [max_eq_right hlt]
              simp
          · intro g hg
            rcases List.mem_append.mp hg with hg | hg
            · have := hle g hg
              omega
            · obtain rfl := List.mem_singleton.mp hg
              exact Int.le_max_right ..

/-! ## The slots -/

/-- The writer and the window, as the slots of the ring show them. -/
structure Receiver.WriterWindow (R : Receiver M) (accepted : List ℤ) : Prop where
  /-- a descriptor is open exactly while the first segment is written to it -/
  writer : R.out_fd ≠ -1 ↔
    R.SS.states_initialized (slotIndex R.SS R.SS.min_file_nbr) = true ∧
    (R.SS.states (slotIndex R.SS R.SS.min_file_nbr)).mode = .writing ∧
    (R.SS.states (slotIndex R.SS R.SS.min_file_nbr)).file_nbr = R.SS.min_file_nbr ∧
    (R.SS.states (slotIndex R.SS R.SS.min_file_nbr)).out_fd = R.out_fd
  alone : ∀ j, R.SS.states_initialized j = true → (R.SS.states j).mode = .writing →
    j = slotIndex R.SS R.SS.min_file_nbr
  released : ∀ j, R.SS.states_initialized j = true → (R.SS.states j).mode ≠ .receiving →
    (R.SS.states j).file_nbr < R.recv_file_nbr
  permitted : R.out_fd ≠ -1 → R.write_ok = true
  newest : accepted ≠ [] →
    (R.recv_file_nbr ∈ accepted ∧ ∀ f ∈ accepted, f ≤ R.recv_file_nbr) ∧
    (R.SS.min_file_nbr ≤ R.recv_file_nbr ∧ R.recv_file_nbr < R.SS.min_file_nbr + segstateSetN) ∧
    R.SS.states_initialized (slotIndex R.SS R.recv_file_nbr) = true ∧
    (R.SS.states (slotIndex R.SS R.recv_file_nbr)).file_nbr = R.recv_file_nbr ∧
    (R.SS.states (slotIndex R.SS R.recv_file_nbr)).mode = .receiving

/-- The assertions that rest on the state of the loop alone. -/
def Fault.OfLoop (e : Fault) : Prop :=
  e = .taskWriteStatus ∨ e = .prepareOutputFd ∨ e = .writeMoreFd ∨ e = .writeMoreMode ∨
    e = .markInitializedStatus

theorem Receiver.Inv.writerWindow {R : Receiver M} (h : R.Inv) {accepted : List ℤ}
    (hnew : R.Newest accepted) : R.WriterWindow accepted := by
  refine ⟨?_, ?_, ?_, h.permitted, ?_⟩
  · constructor
    · intro hfd
      obtain ⟨S, hS, hd⟩ := h.drains hfd
      obtain ⟨-, hi, rfl⟩ := lookup_eq_some_iff.mp hS
      exact ⟨hi, hd.mode_eq, h.placed.file_nbr hS, hd.out_fd_eq⟩
    · rintro ⟨hi, hmode, -⟩ hfd
      have hS := lookup_eq_some_iff.mpr ⟨R.SS.inWindow_min, hi, rfl⟩
      exact (h.gathers_of_closed hfd hS).mode_ne hmode
  · intro j hj hmode
    obtain ⟨f, hw, rfl, -⟩ := h.placed j hj
    have hS := lookup_eq_some_iff.mpr ⟨hw, hj, rfl⟩
    rcases h.segs f _ hS with hg | ⟨rfl, -⟩
    · exact absurd hmode hg.mode_ne
    · rfl
  · intro j hj hmode
    exact h.older _ _ (h.placed.lookup_states hj) hmode
  · intro hne
    obtain ⟨hw, S, hS, hmode⟩ := h.newest (hnew.1.mpr hne)
    obtain ⟨-, hi, rfl⟩ := lookup_eq_some_iff.mp hS
    exact ⟨hnew.2 hne, hw, hi, h.placed.file_nbr hS, hmode⟩

/-- In every state that the loop reaches, whatever arrives and however opening and writing
turn out, the writer and the window fit together, and the assertions that rest on that
hold in the next pass. -/
theorem writer_window_invariant {L : SegmentList} {host : Host M} {ready_fd : ℤ}
    {R : Receiver M} {t : List (Entry (Receiver M) Input Event)}
    (h : Run (Receiver.Step L host) (Receiver.init host ready_fd) t R) :
    R.WriterWindow (acceptedNbrs (events t)) ∧
      ∀ i e, R.MayReport i.sel → loopPass L host R i = .error e → ¬e.OfLoop := by
  have hinv := inv_of_run h
  refine ⟨hinv.writerWindow (newest_of_run h), ?_⟩
  intro i e hmay herr hloop
  obtain ⟨-, ⟨n, -, rfl⟩ | ⟨d, -, herr⟩⟩ := hinv.loopPass_eq_error hmay herr
  · simp [Fault.OfLoop] at hloop
  · rcases hinv.receivePacket_eq_error herr with ⟨-, -, hP⟩ | ⟨S, hadd, hS⟩
    · rcases paramDeriv_eq_error hP with rfl | rfl | rfl <;> simp [Fault.OfLoop] at hloop
    · by_cases hmode : S.mode = .receiving
      · obtain ⟨f, len, kept, hr⟩ : ∃ f len kept, S.Receives f len kept := by
          rcases hS with hS | ⟨-, hsmall, rfl⟩
          · obtain ⟨len, kept, hr⟩ := (hinv.gathers hS (by simp [hmode])).receives
            exact ⟨_, len, kept, hr⟩
          · exact ⟨_, _, _, receives_initialSegment host _ hsmall⟩
        rcases hr.addPacket_eq_error (p := (_, _)) hadd with
          ⟨rfl, -⟩ | ⟨rfl, -⟩ | ⟨rfl, -⟩ | ⟨rfl, -⟩ <;> simp [Fault.OfLoop] at hloop
      · obtain ⟨e', hadd', he⟩ := segstateAddPacket_late hmode (cutDatagram d).header
          (cutDatagram d).payload
        obtain rfl := Except.error.inj (hadd.symm.trans hadd')
        rcases he with rfl | rfl | rfl | rfl | rfl <;> simp [Fault.OfLoop] at hloop

/-- The first segment is being written, and the second one is received. -/
theorem writer_window_invariant_tiny :
    ∃ (t : List (Entry (Receiver Unit) Input Event)) (R : Receiver Unit),
      t.map Entry.input = [recvInput (tinyDatagram 0), recvInput (tinyDatagram 1), timeoutInput] ∧
      R.out_fd ≠ -1 ∧ R.WriterWindow (acceptedNbrs (events t)) ∧
      ∀ i e, R.MayReport i.sel → loopPass (tinyList 2) refusingHost R i = .error e → ¬e.OfLoop := by
  obtain ⟨t, R, R₁, es₁, hrun, hinputs, -, hstep₁, hctl₁⟩ := tiny_timeout refusingHost
    refusingHost (n := 2) (by decide) (L := tinyList 2) (-1) [0, 1] (by decide) (by decide) rfl
    (by decide) (by decide) (by decide) (by decide)
  have hfd₁ : R₁.out_fd ≠ -1 := of_decide_eq_true (congrArg Control.writing hctl₁)
  exact ⟨_, R₁, by simp [hinputs], hfd₁,
    writer_window_invariant ((hrun.snoc hstep₁).mono fun _ _ _ _ hs => hs.2.2)⟩

end RqRoute
