import RqRoute.Verification.Codec.Contract
import RqRoute.Verification.Receiver.Table

/-! # A stream without losses

Every datagram of a playlist arrives, in the order it was sent, and whatever can be written
is written before the next one. A segment is released by the first packet of a newer one, so
the last segment of the playlist is never written and the loop never comes to its end. -/

namespace RqRoute

open Checked Segstateset Transition

variable {M N : Type}

/-! ## The stream -/

/-- What the transmissions of the files send, one after the other. -/
def transmission (sender : Host N) (files : List (List UInt8)) (nExtra : ℕ → ℤ) : List Datagram :=
  (List.range files.length).flatMap fun f : ℕ => (xmitFile sender files[f]? f (nExtra f)).sent

/-- Nothing can be done before the next datagram: no output is open, and no timeout is set. -/
def Receiver.Quiet (R : Receiver M) : Prop := R.out_fd = -1 ∧ ¬R.HasTimeout

/-- A step of the receiver, with all opens and writes succeeding, and with the datagrams that
are still under way. They arrive in their order, and only when there is nothing else to do. -/
def LosslessStep (L : SegmentList) (host : Host M) (s : Receiver M × List Datagram) (i : Input)
    (s' : Receiver M × List Datagram) (es : List Event) : Prop :=
  (i.opened ≠ none ∧ i.taken ≠ none) ∧ s.1.Step L host i s'.1 es ∧
    if nexttask s.1 i.sel = .ok (some .recv) then
      s.1.Quiet ∧ ∃ d, i.recv = .packet d ∧ s.2 = d :: s'.2
    else s'.2 = s.2

section
variable {sender : Host N} {files : List (List UInt8)} {nExtra : ℕ → ℤ}

theorem sent_of_mem_transmission {d : Datagram} (h : d ∈ transmission sender files nExtra) :
    Sent sender files d := by
  obtain ⟨f, hf, hd⟩ := List.mem_flatMap.mp h
  have hlt := List.mem_range.mp hf
  rw [List.getElem?_eq_getElem hlt] at hd
  exact ⟨f, files[f], nExtra f, List.getElem?_eq_getElem hlt, hd⟩

/-- The packets of a file carry its number. -/
theorem toi_of_mem_sent (hlen : files.length ≤ 65536) (hsmall : SmallFiles files) {f : ℕ}
    (hf : f < files.length) {d : Datagram} {n : ℤ}
    (hd : d ∈ (xmitFile sender files[f]? f n).sent) : d.header.toi.toNat = f := by
  rw [List.getElem?_eq_getElem hf] at hd
  have htoi := (xmitFile_sent (hsmall _ (List.getElem_mem hf)) hd).toi
  omega

/-- The file numbers of the stream never go down. -/
theorem transmission_sorted (hlen : files.length ≤ 65536) (hsmall : SmallFiles files) :
    (transmission sender files nExtra).Pairwise
      fun d e => d.header.toi.toNat ≤ e.header.toi.toNat := by
  refine List.pairwise_flatMap.mpr ⟨fun f hf => ?_, ?_⟩
  · refine List.Pairwise.imp_of_mem (fun hd he _ => ?_)
      (List.pairwise_of_forall (R := fun _ _ => True) fun _ _ => trivial)
    have hlt := List.mem_range.mp hf
    rw [toi_of_mem_sent hlen hsmall hlt hd, toi_of_mem_sent hlen hsmall hlt he]
  · refine List.Pairwise.imp_of_mem (fun hf hg hlt d hd e he => ?_) List.pairwise_lt_range
    rw [toi_of_mem_sent hlen hsmall (List.mem_range.mp hf) hd,
      toi_of_mem_sent hlen hsmall (List.mem_range.mp hg) he]
    exact Nat.le_of_lt hlt

end

/-! ## What can be written is written -/

namespace Control

theorem recv_get_le (c : Control) (f : ℤ) : (c.get f).recv ≤ max c.recv f := by
  unfold get
  split
  · split
    · exact Int.le_of_eq (recv_start _)
    · exact Int.le_refl _
  · exact Int.le_max_left ..

end Control

section
variable {files : List (List UInt8)} {L : SegmentList} {host : Host M} {R : Receiver M}
  {ds : List Datagram}

/-- The invariants of a lossless run. -/
structure Receiver.Fits (files : List (List UInt8)) (R : Receiver M) : Prop where
  inv : R.Inv
  carries : R.Carries files
  min_lt : R.SS.min_file_nbr < files.length

/-- The window moves only below the newest segment, and that belongs to the playlist. -/
theorem Receiver.Fits.step {i : Input} {R' : Receiver M} {es : List Event} (h : R.Fits files)
    (hgen : ∀ d, nexttask R i.sel = .ok (some .recv) → i.recv = .packet d → Genuine files d)
    (hs : R.Step L host i R' es) : R'.Fits files := by
  refine ⟨h.inv.step hs, h.carries.step hgen hs, ?_⟩
  rcases hs.min_file_nbr h.inv with heq | ⟨heq, htask, S, hS, -⟩
  · rw [heq]
    exact h.min_lt
  · obtain ⟨S', hS', hd⟩ := h.inv.drains (nexttask_write htask)
    have holder := h.inv.older _ S' hS' (by simp [hd.mode_eq])
    have hrecv := h.inv.recv_lt h.carries (h.inv.started_of_lookup hS)
    omega

theorem Receiver.Fits.min_ne (h : R.Fits files) (hL : L.n_segments = files.length) :
    R.SS.min_file_nbr ≠ L.n_segments := by
  have := h.min_lt
  omega

variable (host) in
/-- Without a timeout, every segment that can be written is written. -/
theorem Receiver.Fits.drain_writes (h : R.Fits files) (hL : L.n_segments = files.length)
    (hok : R.write_ok = true) (ds : List Datagram) :
    ∃ t R', Run (LosslessStep L host) (R, ds) t (R', ds) ∧ R'.Fits files ∧ R'.Quiet ∧
      R'.recv_file_nbr = R.recv_file_nbr := by
  induction hm : (R.recv_file_nbr - R.SS.min_file_nbr).toNat using Nat.strong_induction_on
    generalizing R with
  | _ m ih =>
      by_cases hfd : R.out_fd = -1
      · exact ⟨[], R, .nil, h, ⟨hfd, fun ht => ht.2.2 hok⟩, rfl⟩
      · obtain ⟨n, R₁, es, hstep, hctl⟩ := h.inv.exists_finish host hfd (h.min_ne hL)
        have hmin₁ : R₁.SS.min_file_nbr = R.SS.min_file_nbr + 1 :=
          (congrArg Control.min hctl).trans (Control.min_start _)
        have hrecv₁ : R₁.recv_file_nbr = R.recv_file_nbr :=
          (congrArg Control.recv hctl).trans (Control.recv_start _)
        have hok₁ : R₁.write_ok = true :=
          (congrArg Control.write_ok hctl).trans ((Control.write_ok_start _).trans hok)
        have htask := nexttask_writeInput hfd n
        have hno : nexttask R (writeInput n).sel ≠ .ok (some .recv) := by
          rw [htask]
          simp
        have h₁ : R₁.Fits files := h.step (fun d hrecv => absurd hrecv hno) hstep
        obtain ⟨S, hS, hd⟩ := h.inv.drains hfd
        have holder := h.inv.older _ S hS (by simp [hd.mode_eq])
        obtain ⟨t, R', hrun, hfits, hquiet, hrecv⟩ := ih _ (by omega) h₁ hok₁ rfl
        have hfirst : LosslessStep L host (R, ds) (writeInput n) (R₁, ds) es :=
          ⟨⟨by simp [writeInput], by simp [writeInput]⟩, hstep, by rw [if_neg hno]⟩
        exact ⟨_, R', (Run.single hfirst).trans hrun, hfits, hquiet, hrecv.trans hrecv₁⟩

variable (host) in
/-- Before the next datagram the receiver comes to rest. -/
theorem Receiver.Fits.drain (h : R.Fits files) (hL : L.n_segments = files.length)
    (ds : List Datagram) :
    ∃ t R', Run (LosslessStep L host) (R, ds) t (R', ds) ∧ R'.Fits files ∧ R'.Quiet ∧
      R'.recv_file_nbr = R.recv_file_nbr := by
  by_cases hfd : R.out_fd = -1
  · by_cases htime : R.HasTimeout
    · obtain ⟨R₁, es, hstep, hctl⟩ := h.inv.exists_timeout host htime (h.min_ne hL)
      have hrecv₁ : R₁.recv_file_nbr = R.recv_file_nbr :=
        (congrArg Control.recv hctl).trans (Control.recv_start _)
      have hok₁ : R₁.write_ok = true :=
        (congrArg Control.write_ok hctl).trans (Control.write_ok_start _)
      have hno : nexttask R timeoutInput.sel ≠ .ok (some .recv) := by
        rw [nexttask_timeoutInput hfd]
        simp
      have h₁ : R₁.Fits files := h.step (fun d hrecv => absurd hrecv hno) hstep
      obtain ⟨t, R', hrun, hfits, hquiet, hrecv⟩ :=
        h₁.drain_writes host hL hok₁ ds
      have hfirst : LosslessStep L host (R, ds) timeoutInput (R₁, ds) es :=
        ⟨⟨by simp [timeoutInput], by simp [timeoutInput]⟩, hstep, by rw [if_neg hno]⟩
      exact ⟨_, R', (Run.single hfirst).trans hrun, hfits, hquiet, hrecv.trans hrecv₁⟩
    · exact ⟨[], R, .nil, h, ⟨hfd, htime⟩, rfl⟩
  · exact h.drain_writes host hL (h.inv.permitted hfd) ds

/-! ## The whole stream -/

variable (host) in
/-- A stream whose file numbers never go down is received to its end. -/
theorem Receiver.Fits.lossless_run (h : R.Fits files) (hL : L.n_segments = files.length)
    {ds : List Datagram} (hgen : ∀ d ∈ ds, Genuine files d)
    (hsorted : ds.Pairwise fun d e => d.header.toi.toNat ≤ e.header.toi.toNat)
    (hrecv : ∀ d ∈ ds, R.recv_file_nbr ≤ d.header.toi.toNat) :
    ∃ t R', Run (LosslessStep L host) (R, ds) t (R', []) ∧ R'.Quiet := by
  induction ds generalizing R with
  | nil =>
      obtain ⟨t, R', hrun, -, hquiet, -⟩ := h.drain host hL []
      exact ⟨t, R', hrun, hquiet⟩
  | cons d ds ih =>
      obtain ⟨t, R₁, hrun, h₁, hquiet, hrecv₁⟩ := h.drain host hL (d :: ds)
      have hd := hgen d List.mem_cons_self
      have hle := hrecv d List.mem_cons_self
      have hlate : ¬R₁.TooLate d := by
        rintro ⟨S, hS, hmode⟩
        have := h₁.inv.older _ S hS hmode
        omega
      obtain ⟨R₂, es, hstep, hctl⟩ :=
        h₁.inv.exists_recv host h₁.carries hd hlate (h₁.min_ne hL)
      have h₂ : R₂.Fits files := h₁.step (fun d' _ hpkt => by cases hpkt; exact hd) hstep
      have hrecv₂ : R₂.recv_file_nbr ≤ max R₁.recv_file_nbr d.header.toi.toNat := by
        rw [show R₂.recv_file_nbr = _ from congrArg Control.recv hctl]
        exact Control.recv_get_le ..
      obtain ⟨hfirst, hrest⟩ := List.pairwise_cons.mp hsorted
      obtain ⟨t', R', hrun', hquiet'⟩ := ih h₂ (fun e he => hgen e (List.mem_cons_of_mem _ he))
        hrest fun e he => by
          have := hfirst e he
          omega
      have hone : LosslessStep L host (R₁, d :: ds) (recvInput d) (R₂, ds) es :=
        ⟨⟨by simp [recvInput], by simp [recvInput]⟩, hstep, by
          rw [if_pos (nexttask_recvInput R₁ d)]
          exact ⟨hquiet, d, rfl, rfl⟩⟩
      exact ⟨_, R', (hrun.trans (.single hone)).trans hrun', hquiet'⟩

end

/-! ## What is written -/

/-- A pass writes to the first segment, and only when a newer one has been seen. -/
theorem Receiver.Inv.bytesWritten_eq_nil {L : SegmentList} {host : Host M} {R R' : Receiver M}
    {i : Input} {es : List Event} (h : R.Inv) (hs : R.Step L host i R' es) {f : ℤ}
    (hf : R.SS.min_file_nbr = f → R.recv_file_nbr ≤ f) : bytesWritten f es = [] := by
  obtain ⟨-, -, hpass⟩ := step_iff.mp hs
  cases hpass with
  | recv _ _ hgets => exact hgets.bytesWritten f
  | write htask hwrites =>
      obtain ⟨S, hS, hd⟩ := h.drains (nexttask_write htask)
      have holder := h.older _ S hS (by simp [hd.mode_eq])
      have hne : R.SS.min_file_nbr ≠ f := fun heq => by
        have := hf heq
        omega
      cases hwrites with
      | more => simp [bytesWritten, hne]
      | last _ _ _ hstart =>
          rw [bytesWritten_append, hstart.bytesWritten]
          simp [bytesWritten, hne]
  | startWrite _ hstart => exact hstart.bytesWritten f
  | signalReady => rfl

/-- In a lossless run the last segment of the playlist is never written. -/
theorem fits_of_lossless_run (host : Host M) (ready_fd : ℤ) {files : List (List UInt8)}
    {L : SegmentList} (hn : 1 ≤ files.length) {ds₀ : List Datagram}
    (hgen : ∀ d ∈ ds₀, Genuine files d) {t : List (Entry (Receiver M × List Datagram) Input Event)}
    {s : Receiver M × List Datagram}
    (h : Run (LosslessStep L host) (Receiver.init host ready_fd, ds₀) t s) :
    (s.1.Fits files ∧ ∀ d ∈ s.2, Genuine files d) ∧
      bytesWritten (files.length - 1) (events t) = [] := by
  induction h with
  | nil =>
      refine ⟨⟨⟨inv_init host ready_fd, fun f S hS => ?_, ?_⟩, hgen⟩, rfl⟩
      · simp [Receiver.init] at hS
      · change (0 : ℤ) < _
        omega
  | @snoc t s s' i es _ hstep ih =>
      obtain ⟨⟨hfits, hrest⟩, hwritten⟩ := ih
      obtain ⟨-, hstep, hstream⟩ := hstep
      have hkeep : (∀ d, nexttask s.1 i.sel = .ok (some .recv) → i.recv = .packet d →
          Genuine files d) ∧ ∀ d ∈ s'.2, Genuine files d := by
        split at hstream
        · obtain ⟨-, d, hpkt, hds⟩ := hstream
          rw [hds] at hrest
          refine ⟨fun d' _ hpkt' => ?_, fun e he => hrest e (List.mem_cons_of_mem _ he)⟩
          rw [hpkt] at hpkt'
          cases hpkt'
          exact hrest d List.mem_cons_self
        · rename_i hno
          exact ⟨fun d htask => absurd htask hno, by rw [hstream]; exact hrest⟩
      refine ⟨⟨hfits.step hkeep.1 hstep, hkeep.2⟩, ?_⟩
      rw [events_append, events_singleton, bytesWritten_append, hwritten,
        hfits.inv.bytesWritten_eq_nil hstep, List.append_nil]
      intro hmin
      by_cases hst : s.1.started = true
      · have := hfits.inv.recv_lt hfits.carries hst
        omega
      · have := (hfits.inv.unstarted (by simpa using hst)).1
        omega

/-- For every playlist the lossless stream is received until nothing is left to do. But
neither then nor before has the window reached the end of the list, and nothing of the last
segment has been written. -/
theorem lossless_stream_incomplete (sender : Host N) (host : Host M) {files : List (List UInt8)}
    (hn : 1 ≤ files.length) (hlen : files.length < 65536) (hsmall : SmallFiles files)
    {L : SegmentList} (hL : L.n_segments = files.length) (nExtra : ℕ → ℤ) (ready_fd : ℤ) :
    (∃ t R, Run (LosslessStep L host)
        (Receiver.init host ready_fd, transmission sender files nExtra) t (R, []) ∧ R.Quiet) ∧
      ∀ t R ds, Run (LosslessStep L host)
        (Receiver.init host ready_fd, transmission sender files nExtra) t (R, ds) →
        R.SS.min_file_nbr ≠ L.n_segments ∧
          bytesWritten (files.length - 1) (events t) = [] := by
  have hgen : ∀ d ∈ transmission sender files nExtra, Genuine files d := fun d hd =>
    (sent_of_mem_transmission hd).genuine (by omega) hsmall
  constructor
  · obtain ⟨⟨hfits, -⟩, -⟩ := fits_of_lossless_run (L := L) host ready_fd hn hgen .nil
    refine hfits.lossless_run host hL hgen (transmission_sorted (by omega) hsmall) fun d _ => ?_
    change (-1 : ℤ) ≤ _
    omega
  · intro t R ds hrun
    obtain ⟨⟨hfits, -⟩, hwritten⟩ := fits_of_lossless_run host ready_fd hn hgen hrun
    exact ⟨hfits.min_ne hL, hwritten⟩

/-- Two files of one byte. -/
theorem lossless_tiny_incomplete :
    ∃ (t : List (Entry (Receiver Unit × List Datagram) Input Event)) (R : Receiver Unit),
      Run (LosslessStep (tinyList 2) refusingHost)
        (Receiver.init refusingHost (-1), transmission refusingHost (tinyFiles 2) fun _ => 0) t
        (R, []) ∧ R.Quiet ∧ R.SS.min_file_nbr ≠ (tinyList 2).n_segments ∧
      bytesWritten 1 (events t) = [] := by
  have hgen : ∀ d ∈ transmission refusingHost (tinyFiles 2) fun _ => 0, Genuine (tinyFiles 2) d :=
    fun d hd => (sent_of_mem_transmission hd).genuine (by decide) (smallFiles_tiny 2)
  obtain ⟨⟨hfits, -⟩, -⟩ := fits_of_lossless_run (L := tinyList 2) refusingHost (-1)
    (by decide) hgen .nil
  obtain ⟨t, R, hrun, hquiet⟩ := hfits.lossless_run (L := tinyList 2) refusingHost rfl
    hgen (transmission_sorted (by decide) (smallFiles_tiny 2)) fun d _ => by
      change (-1 : ℤ) ≤ _
      omega
  obtain ⟨⟨hfits', -⟩, hwritten⟩ := fits_of_lossless_run refusingHost (-1) (by decide) hgen hrun
  exact ⟨t, R, hrun, hquiet, hfits'.min_ne rfl, hwritten⟩

/-- The statement for a playlist of one file. -/
theorem lossless_stream_incomplete_tiny :
    ∃ (t : List (Entry (Receiver Unit × List Datagram) Input Event)) (R : Receiver Unit),
      Run (LosslessStep (tinyList 1) refusingHost)
        (Receiver.init refusingHost (-1), transmission refusingHost (tinyFiles 1) fun _ => 0) t
        (R, []) ∧ R.Quiet ∧ R.SS.min_file_nbr ≠ 1 := by
  obtain ⟨⟨t, R, hrun, hquiet⟩, hall⟩ := lossless_stream_incomplete refusingHost refusingHost
    (L := tinyList 1) (by decide) (by decide) (smallFiles_tiny 1) rfl
    (fun _ => 0) (-1)
  exact ⟨t, R, hrun, hquiet, (hall t R [] hrun).1⟩

end RqRoute
