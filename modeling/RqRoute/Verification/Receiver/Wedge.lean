import RqRoute.Verification.Codec.Contract
import RqRoute.Verification.Receiver.Wakeup

/-! # When the window can still move

The window moves only by writing its first segment, and a segment is released only by the
first packet of a newer one. When the newest number of the window has arrived and the first
segment has not been released, nothing ever moves it again. -/

namespace RqRoute

open Checked Segstateset Transition

variable {M N : Type}

/-- The first segment of the window has been released, or a segment is to come that releases
it: one that is newer than those seen, lies in the window and belongs to the playlist. -/
def Control.CanAdvance (n : ℤ) (c : Control) : Prop :=
  c.mode c.min = some .readyToWrite ∨ c.mode c.min = some .writing ∨
    (max c.min c.recv + 1 < c.min + segstateSetN ∧ max c.min c.recv + 1 < n)

instance (n : ℤ) (c : Control) : Decidable (c.CanAdvance n) :=
  inferInstanceAs (Decidable (_ ∨ _ ∨ _))

/-! ## Without such a segment -/

namespace Control

theorem writing_timeout {c : Control} (h : c.mode c.min = some .readyToWrite) :
    c.timeout.writing = true := by
  rw [timeout, start, if_pos h]

theorem timeout_of_not_ready {c : Control} (h : c.mode c.min ≠ some .readyToWrite) :
    c.timeout = { c with write_ok := true } := if_neg h

/-- The window stays where it is. -/
theorem get_of_not_canAdvance {n : ℤ} {c : Control} (h : ¬c.CanAdvance n) {f : ℤ} (hf : f < n) :
    ¬(c.get f).CanAdvance n := by
  unfold CanAdvance at h
  push Not at h
  obtain ⟨hready, hwriting, hlast⟩ := h
  unfold get
  split
  · rename_i hin
    have hwindow : f < c.min + 4 := hin.1.2
    have hle : f ≤ max c.min c.recv := by
      by_contra hgt
      have hend := hlast (by change _ < c.min + 4; omega)
      omega
    have hmode : (c.enter f).mode c.min ≠ some .readyToWrite ∧
        (c.enter f).mode c.min ≠ some .writing := by
      simp only [enter]
      split
      · simp
      · rename_i hne
        rw [if_neg (by omega)]
        exact ⟨hready, hwriting⟩
    have henter : ¬(c.enter f).CanAdvance n := by
      rintro (hr | hw | ⟨h₁, h₂⟩)
      · exact hmode.1 hr
      · exact hmode.2 hw
      · simp only [enter] at h₁ h₂
        have hsame : max c.min (max c.recv f) = max c.min c.recv := by omega
        rw [hsame] at h₁ h₂
        have hend := hlast h₁
        omega
    split
    · rw [start_of_not_ready hmode.1]
      exact henter
    · exact henter
  · rintro (hr | hw | ⟨h₁, h₂⟩)
    · exact hready hr
    · exact hwriting hw
    · have hend := hlast h₁
      omega

end Control

/-- No step leads out of such a state. -/
theorem SmoothStep.wedged {sender : Host N} {files : List (List UInt8)}
    (hlen : files.length ≤ 65536) (hsmall : SmallFiles files) {L : SegmentList}
    (hL : L.n_segments = files.length) {host : Host M} {R R' : Receiver M} {i : Input}
    {es : List Event} (hs : SmoothStep sender files L host R i R' es) (h : R.Inv)
    (hno : ¬R.control.CanAdvance L.n_segments) :
    R'.SS.min_file_nbr = R.SS.min_file_nbr ∧ ¬R'.control.CanAdvance L.n_segments := by
  obtain ⟨⟨hopen, -⟩, hfrom, hstep⟩ := hs
  obtain ⟨hmay, -, hpass⟩ := step_iff.mp hstep
  suffices hctl : R'.control.min = R.control.min ∧ ¬R'.control.CanAdvance L.n_segments from hctl
  cases hpass with
  | @recv d _ _ htask hpkt hgets =>
      have hd := hfrom.genuine hlen hsmall htask hpkt
      have hlt := hd.toi_lt
      rw [hd.cutDatagram_eq] at hgets
      rw [h.control_gets hopen hgets]
      exact ⟨Control.min_get .., Control.get_of_not_canAdvance hno (by omega)⟩
  | write htask _ =>
      obtain ⟨S, hS, hd⟩ := h.drains (nexttask_write htask)
      refine absurd (.inr (.inl ?_)) hno
      rw [← hd.mode_eq]
      exact control_mode hS
  | startWrite htask hstarts =>
      obtain ⟨hfd, hst, -⟩ := nexttask_startWrite hmay htask
      have hctl : R'.control = R.control.timeout :=
        (h.permit hst).control_starts hfd hopen hstarts
      rw [hctl, Control.timeout_of_not_ready fun hr => hno (.inl hr)]
      exact ⟨rfl, hno⟩
  | signalReady => exact ⟨rfl, hno⟩

/-- Whatever arrives later, the window does not move. -/
theorem wedged_forever {sender : Host N} {files : List (List UInt8)}
    (hlen : files.length ≤ 65536) (hsmall : SmallFiles files) {L : SegmentList}
    (hL : L.n_segments = files.length) {host : Host M} {R R' : Receiver M}
    {t : List (Entry (Receiver M) Input Event)} (h : R.Inv)
    (hno : ¬R.control.CanAdvance L.n_segments)
    (hrun : Run (SmoothStep sender files L host) R t R') :
    R'.SS.min_file_nbr = R.SS.min_file_nbr := by
  have hall := hrun.invariant (P := fun S => S.Inv ∧ S.SS.min_file_nbr = R.SS.min_file_nbr ∧
    ¬S.control.CanAdvance L.n_segments) ⟨h, rfl, hno⟩ ?_
  · exact hall.2.1
  · rintro S i S' es ⟨hinv, hmin, hstuck⟩ hs
    obtain ⟨hmin', hstuck'⟩ := hs.wedged hlen hsmall hL hinv hstuck
    exact ⟨hinv.step hs.2.2, hmin'.trans hmin, hstuck'⟩

/-! ## With such a segment -/

namespace Control

/-- The first packet of the first segment. -/
theorem get_first {c : Control} {f : ℤ} (hf : f = c.min) (hnone : c.mode f = none) :
    (c.get f).recv = max c.recv f ∧ (c.get f).mode f = some .receiving := by
  have hmode : (c.enter f).mode f = some .receiving := if_pos rfl
  have hstart : (c.enter f).start = c.enter f := start_of_not_ready (by
    change (c.enter f).mode c.min ≠ _
    rw [← hf, hmode]
    simp)
  have hget : c.get f = c.enter f := by
    unfold Control.get
    rw [if_pos ⟨⟨by omega, by change f < c.min + 4; omega⟩, hnone⟩]
    split
    · exact hstart
    · rfl
  rw [hget]
  exact ⟨rfl, hmode⟩

end Control

section
variable {sender : Host N} {files : List (List UInt8)} {L : SegmentList} {host : Host M}
  {R : Receiver M}

variable (sender files host) in
/-- A segment that is being written can be finished. -/
theorem advance_writing (h : R.Inv) (hfd : R.out_fd ≠ -1)
    (hmin : R.SS.min_file_nbr ≠ L.n_segments) :
    ∃ t R', Run (SmoothStep sender files L host) R t R' ∧
      R.SS.min_file_nbr < R'.SS.min_file_nbr := by
  obtain ⟨n, R', es, hstep, hctl⟩ := h.exists_finish host hfd hmin
  refine ⟨_, R', .single ⟨⟨by simp [writeInput], by simp [writeInput]⟩,
    fromPlaylist_write hfd n, hstep⟩, ?_⟩
  have hnext : R'.SS.min_file_nbr = R.SS.min_file_nbr + 1 := by
    have hm := congrArg Control.min hctl
    rw [Control.finish, Control.min_start] at hm
    exact hm
  omega

variable (sender files host) in
/-- A released segment can be written: at once, or after the first deadline. -/
theorem advance_released (h : R.Inv) (hp : R.control.Prompt)
    (hmin : R.SS.min_file_nbr ≠ L.n_segments)
    (hrel : R.control.mode R.SS.min_file_nbr = some .readyToWrite ∨
      R.control.mode R.SS.min_file_nbr = some .writing) :
    ∃ t R', Run (SmoothStep sender files L host) R t R' ∧
      R.SS.min_file_nbr < R'.SS.min_file_nbr := by
  by_cases hfd : R.out_fd = -1
  · have hready : R.control.mode R.SS.min_file_nbr = some .readyToWrite := by
      refine hrel.resolve_right fun hw => ?_
      obtain ⟨S, hS, hmode⟩ := control_mode_eq_some.mp hw
      exact (h.gathers_of_closed hfd hS).mode_ne hmode
    obtain ⟨S, hS, -⟩ := control_mode_eq_some.mp hready
    have htime : R.HasTimeout := by
      refine ⟨hfd, h.started_of_lookup hS, fun hok => ?_⟩
      exact hp hok (by simp [Receiver.control, hfd]) hready
    obtain ⟨R₁, es, hstep, hctl⟩ := h.exists_timeout host htime hmin
    have hmin₁ : R₁.SS.min_file_nbr = R.SS.min_file_nbr := by
      have hm := congrArg Control.min hctl
      rwa [Control.timeout, Control.min_start] at hm
    have hfd₁ : R₁.out_fd ≠ -1 := by
      have hw := congrArg Control.writing hctl
      rw [Control.writing_timeout hready] at hw
      simpa [Receiver.control] using hw
    obtain ⟨t, R', hrun, hlt⟩ := advance_writing sender files
      host (h.step hstep) hfd₁ (hmin₁ ▸ hmin)
    have hfirst : Run (SmoothStep sender files L host) R _ R₁ :=
      .single ⟨⟨by simp [timeoutInput], by simp [timeoutInput]⟩, fromPlaylist_timeout hfd, hstep⟩
    exact ⟨_, R', hfirst.trans hrun, by omega⟩
  · exact advance_writing sender files host h hfd hmin

/-- Every file of the playlist sends a packet. -/
theorem exists_sent (sender : Host N) (hlen : files.length ≤ 65536) (hsmall : SmallFiles files)
    {f : ℕ} (hf : f < files.length) : ∃ d, Sent sender files d ∧ d.header.toi.toNat = f := by
  have hcontent := hsmall files[f] (List.getElem_mem hf)
  have hsent := first_mem_sent sender hcontent f
  refine ⟨_, ⟨f, files[f], 0, List.getElem?_eq_getElem hf, hsent⟩, ?_⟩
  have htoi := (xmitFile_sent hcontent hsent).toi
  omega

variable (host) in
/-- A packet that is not too late can be received. -/
theorem smooth_recv (hlen : files.length ≤ 65536) (hsmall : SmallFiles files) (h : R.Inv)
    (hcar : R.Carries files) (hmin : R.SS.min_file_nbr ≠ L.n_segments) {d : Datagram}
    (hd : Sent sender files d) (hmode : R.control.mode d.header.toi.toNat = none) :
    ∃ t R', Run (SmoothStep sender files L host) R t R' ∧ R'.Inv ∧ R'.Carries files ∧
      R'.control = R.control.get d.header.toi.toNat := by
  have hgen := hd.genuine hlen hsmall
  obtain ⟨R', es, hstep, hctl⟩ := h.exists_recv host hcar hgen
    (by rw [tooLate_iff, hmode]; simp) hmin
  refine ⟨_, R', .single ⟨⟨by simp [recvInput], by simp [recvInput]⟩,
    fun _ => .inr ⟨d, hd, rfl⟩, hstep⟩, h.step hstep, hcar.step (fun d' _ hpkt => ?_) hstep, hctl⟩
  cases hpkt
  exact hgen

variable (sender host) in
/-- The next segment releases the first one, when that has arrived. -/
theorem advance_next (hlen : files.length ≤ 65536) (hsmall : SmallFiles files)
    (hL : L.n_segments = files.length) (h : R.Inv) (hcar : R.Carries files)
    (hp : R.control.Prompt) (hfirst : R.control.mode R.SS.min_file_nbr = some .receiving)
    (hin : R.recv_file_nbr + 1 < R.SS.min_file_nbr + segstateSetN)
    (hlt : R.recv_file_nbr + 1 < L.n_segments) :
    ∃ t R', Run (SmoothStep sender files L host) R t R' ∧
      R.SS.min_file_nbr < R'.SS.min_file_nbr := by
  obtain ⟨S, hS, hmode⟩ := control_mode_eq_some.mp hfirst
  have hle := h.le_recv _ S hS
  have hmin := h.min_nonneg
  have hend : R.recv_file_nbr + 1 < R.SS.min_file_nbr + 4 := hin
  obtain ⟨f, hf⟩ := Int.eq_ofNat_of_zero_le (by omega : 0 ≤ R.recv_file_nbr + 1)
  obtain ⟨d, hd, htoi⟩ := exists_sent sender hlen hsmall (f := f) (by omega)
  have hnone : R.control.mode (f : ℤ) = none := by
    rw [control_mode_eq_none]
    by_contra hne
    obtain ⟨T, hT⟩ := Option.ne_none_iff_exists'.mp hne
    have := h.le_recv _ T hT
    omega
  obtain ⟨t, R₁, hrun, hinv₁, hcar₁, hctl₁⟩ := smooth_recv (L := L) host hlen hsmall h
    hcar (by omega) hd (by rw [htoi]; exact hnone)
  rw [htoi] at hctl₁
  have hmin₁ : R₁.SS.min_file_nbr = R.SS.min_file_nbr := by
    have hm := congrArg Control.min hctl₁
    rwa [Control.min_get] at hm
  have hrel := Control.get_releases (c := R.control) (f := f)
    ⟨by change R.SS.min_file_nbr ≤ _; omega, by change _ < R.SS.min_file_nbr + 4; omega⟩ hnone
    (by change R.recv_file_nbr < _; omega) (by change R.SS.min_file_nbr < _; omega) hfirst
  rw [← hctl₁] at hrel
  obtain ⟨t', R', hrun', hlt'⟩ := advance_released sender files
    host (L := L) hinv₁ (by rw [hctl₁]; exact hp.get _) (by omega)
    (by rw [hmin₁]; exact hrel)
  exact ⟨_, R', hrun.trans hrun', by omega⟩

/-- The window can move from every state that `CanAdvance` describes. -/
theorem advance_of_canAdvance (hlen : files.length ≤ 65536) (hsmall : SmallFiles files)
    (hL : L.n_segments = files.length) (h : R.Inv) (hcar : R.Carries files)
    (hp : R.control.Prompt) (hmin : R.SS.min_file_nbr < L.n_segments)
    (hcan : R.control.CanAdvance L.n_segments) :
    ∃ t R', Run (SmoothStep sender files L host) R t R' ∧
      R.SS.min_file_nbr < R'.SS.min_file_nbr := by
  by_cases hrel : R.control.mode R.SS.min_file_nbr = some .readyToWrite ∨
      R.control.mode R.SS.min_file_nbr = some .writing
  · exact advance_released sender files host h hp (by omega) hrel
  · have hroom : max R.SS.min_file_nbr R.recv_file_nbr + 1 < R.SS.min_file_nbr + 4 ∧
        max R.SS.min_file_nbr R.recv_file_nbr + 1 < L.n_segments := by
      rcases hcan with hr | hw | hroom
      · exact absurd (.inl hr) hrel
      · exact absurd (.inr hw) hrel
      · exact hroom
    cases hfirst : R.control.mode R.SS.min_file_nbr with
    | some mode =>
        obtain ⟨S, hS, -⟩ := control_mode_eq_some.mp hfirst
        have hle := h.le_recv _ S hS
        have hmode : mode = .receiving := by
          rw [hfirst] at hrel
          cases mode <;> simp_all
        rw [hmode] at hfirst
        exact advance_next sender host hlen hsmall hL h hcar hp hfirst
          (by change _ < _ + 4; omega) (by omega)
    | none =>
        -- the first segment has to arrive itself
        have hnonneg := h.min_nonneg
        obtain ⟨f, hf⟩ := Int.eq_ofNat_of_zero_le hnonneg
        obtain ⟨d, hd, htoi⟩ := exists_sent sender hlen hsmall (f := f) (by omega)
        rw [hf] at hfirst
        obtain ⟨t, R₁, hrun, hinv₁, hcar₁, hctl₁⟩ := smooth_recv (L := L) host hlen hsmall
          h hcar (by omega) hd (by rw [htoi]; exact hfirst)
        rw [htoi] at hctl₁
        have hmin₁ : R₁.SS.min_file_nbr = R.SS.min_file_nbr := by
          have hm := congrArg Control.min hctl₁
          rwa [Control.min_get] at hm
        obtain ⟨hrecv₁, hmode₁⟩ := Control.get_first (c := R.control) (f := f) hf.symm hfirst
        rw [← hctl₁] at hrecv₁ hmode₁
        have hrecv : R₁.recv_file_nbr = max R.recv_file_nbr f := hrecv₁
        obtain ⟨t', R', hrun', hlt'⟩ := advance_next sender host (L := L) hlen
          hsmall hL hinv₁ hcar₁ (by rw [hctl₁]; exact hp.get _) (by rw [hmin₁, hf]; exact hmode₁)
          (by change _ < _ + 4; omega) (by omega)
        exact ⟨_, R', hrun.trans hrun', by omega⟩

end

/-- In every state that is reached under traffic of a playlist, with all opens and writes
succeeding, the window can still move exactly when its first segment has been released or
one is to come that releases it. -/
theorem advance_iff_canAdvance {sender : Host N} {host : Host M} {files : List (List UInt8)}
    (hlen : files.length ≤ 65536) (hsmall : SmallFiles files) {L : SegmentList}
    (hL : L.n_segments = files.length) {ready_fd : ℤ} {R : Receiver M}
    {t : List (Entry (Receiver M) Input Event)}
    (h : Run (SmoothStep sender files L host) (Receiver.init host ready_fd) t R)
    (hmin : R.SS.min_file_nbr < L.n_segments) :
    (∃ t' R', Run (SmoothStep sender files L host) R t' R' ∧
      R.SS.min_file_nbr < R'.SS.min_file_nbr) ↔ R.control.CanAdvance L.n_segments := by
  obtain ⟨hinv, hcar⟩ := carries_of_run hlen hsmall (h.mono fun _ _ _ _ hs => hs.2)
  constructor
  · rintro ⟨t', R', hrun, hlt⟩
    by_contra hno
    have hstay := wedged_forever hlen hsmall hL hinv hno hrun
    omega
  · exact advance_of_canAdvance hlen hsmall hL hinv hcar
      (prompt_of_run (h.mono fun _ _ _ _ hs => ⟨hs.1.1, hs.2.2⟩)).2 hmin

/-- The packets of the first segment are lost, and those of the next three arrive. -/
theorem wedge_after_losses :
    ∃ (t : List (Entry (Receiver Unit) Input Event)) (R : Receiver Unit),
      Run (SmoothStep refusingHost (tinyFiles 5) (tinyList 5) refusingHost)
        (Receiver.init refusingHost (-1)) t R ∧
      t.map Entry.input = [1, 2, 3].map (fun f => recvInput (tinyDatagram f)) ∧
      R.SS.min_file_nbr = 0 ∧
      ∀ t' R', Run (SmoothStep refusingHost (tinyFiles 5) (tinyList 5) refusingHost) R t' R' →
        R'.SS.min_file_nbr = 0 := by
  obtain ⟨t, R, hrun, hinputs, hctl⟩ := tiny_run refusingHost refusingHost (n := 5) (by decide)
    (L := tinyList 5) (-1) [1, 2, 3] (by decide) (by decide)
  have hmin : R.SS.min_file_nbr = 0 := congrArg Control.min hctl
  refine ⟨t, R, hrun, hinputs, hmin, fun t' R' hrun' => ?_⟩
  obtain ⟨hinv, -⟩ := carries_of_run (by decide) (smallFiles_tiny 5)
    (hrun.mono fun _ _ _ _ hs => hs.2)
  rw [wedged_forever (by decide) (smallFiles_tiny 5) rfl hinv (by rw [hctl]; decide) hrun', hmin]

/-- The equivalence where the first of three segments has been released. -/
theorem advance_iff_canAdvance_tiny :
    ∃ R : Receiver Unit, R.control = (Control.init.get 0).get 1 ∧
      ((∃ t R', Run (SmoothStep refusingHost (tinyFiles 3) (tinyList 3) refusingHost) R t R' ∧
        R.SS.min_file_nbr < R'.SS.min_file_nbr) ↔ R.control.CanAdvance 3) := by
  obtain ⟨t, R, hrun, -, hctl⟩ := tiny_run refusingHost refusingHost (n := 3) (by decide)
    (L := tinyList 3) (-1) [0, 1] (by decide) (by decide)
  have hmin : R.SS.min_file_nbr = 0 := congrArg Control.min hctl
  exact ⟨R, hctl, advance_iff_canAdvance (L := tinyList 3) (by decide) (smallFiles_tiny 3) rfl
    hrun (by rw [hmin]; decide)⟩

end RqRoute
