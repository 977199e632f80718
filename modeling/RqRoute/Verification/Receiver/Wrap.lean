import RqRoute.Verification.Codec.Contract
import RqRoute.Verification.Receiver.Progress

/-! # File numbers in 16 bits

The sender cuts the file number to the 16 bits of its header field, and the receiver takes
that field for the number itself. So the two ends agree below 65536, and from there on the
receiver drops everything as older than its window. -/

namespace RqRoute

open Checked Memory Segstateset Transition

variable {M N : Type}

/-! ## What every datagram carries -/

namespace Xmit

variable {α β γ : Type} {p : Datagram → Prop}

/-- Every datagram of the computation satisfies `p`. -/
def Sends (p : Datagram → Prop) (x : Xmit α) : Prop := ∀ d ∈ x.sent, p d

theorem sends_of_sent_nil {x : Xmit α} (h : x.sent = []) : Sends p x := by
  intro d hd
  rw [h] at hd
  cases hd

theorem Sends.bind {x : Xmit α} {f : α → Xmit β} (hx : Sends p x) (hf : ∀ a, Sends p (f a)) :
    Sends p (x >>= f) := by
  intro d hd
  rcases mem_sent_bind.mp hd with hd | ⟨a, -, hd⟩
  · exact hx d hd
  · exact hf a d hd

theorem sends_forM {f : γ → Xmit Unit} (hf : ∀ c, Sends p (f c)) (xs : List γ) :
    Sends p (xs.forM f) := by
  intro d hd
  obtain ⟨c, -, hd⟩ := of_mem_sent_forM hd
  exact hf c d hd

theorem sends_foldlM {f : α → γ → Xmit α} (hf : ∀ a c, Sends p (f a c)) (xs : List γ) (a : α) :
    Sends p (xs.foldlM f a) := by
  induction xs generalizing a with
  | nil => exact sends_of_sent_nil rfl
  | cons c xs ih =>
      rw [List.foldlM_cons]
      exact (hf a c).bind ih

end Xmit

open Xmit

/-- The header of a datagram carries `file_nbr`, as far as it fits. -/
def CarriesNbr (file_nbr : ℤ) (d : Datagram) : Prop :=
  (d.header.toi.toNat : ℤ) = file_nbr % 65536

theorem carriesNbr_xmitSymbols (ens_id : UInt16) (P : CodingParams) (fsiz file_nbr : ℤ) (T : ℕ)
    (b : Buffer UInt8) (size : ℕ → ℕ) (js : List ℕ) :
    Sends (CarriesNbr file_nbr)
      (js.forM fun j => xmitSymbol (xmitHeader ens_id P fsiz file_nbr j) T b j (size j)) := by
  refine sends_forM (fun j d hd => ?_) js
  rw [xmitSymbol_sent hd]
  exact toi_xmitHeader ..

theorem carriesNbr_xmitBlock (host : Host M) (sizes : XmitSizes) (P : CodingParams)
    (fsiz file_nbr nExtra : ℤ) (m : XmitMem M) (cb : ℕ) :
    Sends (CarriesNbr file_nbr) (xmitBlock host sizes P fsiz file_nbr nExtra m cb) := by
  refine Sends.bind (sends_of_sent_nil rfl) fun ⟨sz_read, m⟩ => ?_
  refine Sends.bind (carriesNbr_xmitSymbols _ _ _ _ _ _ _ _) fun _ => ?_
  have hrepair : ∀ m : XmitMem M, Sends (CarriesNbr file_nbr) (do
      let m ← repairSymbols host sizes P m
      (List.range nExtra.toNat).forM fun j =>
        xmitSymbol (xmitHeader routeEnsIdRepair P fsiz file_nbr j) P.T.toNat m.srcBlock j P.T.toNat
      pure m) := by
    intro m
    refine Sends.bind (sends_of_sent_nil (sent_repairSymbols ..)) fun m => ?_
    exact Sends.bind (carriesNbr_xmitSymbols _ _ _ _ _ _ (fun _ => P.T.toNat) _) fun _ =>
      sends_of_sent_nil rfl
  split
  · dsimp only
    split
    · exact Sends.bind (sends_of_sent_nil (sent_repairPrograms ..)) hrepair
    · exact Sends.bind (sends_of_sent_nil rfl) hrepair
  · exact sends_of_sent_nil rfl

/-- Whatever the file and the codec, every datagram carries the file number modulo 65536. -/
theorem carriesNbr_xmitFile (host : Host M) (file : Option (List UInt8)) (file_nbr nExtra : ℤ) :
    Sends (CarriesNbr file_nbr) (xmitFile host file file_nbr nExtra) := by
  unfold xmitFile
  simp only
  split
  · exact sends_of_sent_nil rfl
  · split
    · exact sends_of_sent_nil rfl
    · unfold xmitContent
      refine Sends.bind (sends_of_sent_nil rfl) fun P => ?_
      refine Sends.bind (sends_of_sent_nil (sent_xmitSizes ..)) fun sizes => ?_
      refine Sends.bind (sends_of_sent_nil rfl) fun _ => ?_
      refine Sends.bind (sends_foldlM (fun m cb => ?_) _ _) fun _ => sends_of_sent_nil rfl
      exact carriesNbr_xmitBlock _ _ _ _ _ _ _ _

/-! ## Where the receiver puts it -/

/-- The packet is taken for one of segment `f`: its number is looked up in the slot of `f`. -/
def Attributed (SS : Segstateset) (d : Datagram) (f : ℤ) : Prop :=
  ∃ status, segstatesetGet SS d.header.toi.toNat = (status, some (slotIndex SS f)) ∧
    (status = .ok ∨ status = .uninitialized)

theorem attributed_of_eq {SS : Segstateset} {d : Datagram} {f : ℤ} (hw : SS.InWindow f)
    (h : (d.header.toi.toNat : ℤ) = f) : Attributed SS d f := by
  unfold Attributed
  rw [h]
  cases hS : SS.lookup f with
  | none => exact ⟨_, get_of_lookup_none hw hS, .inr rfl⟩
  | some S => exact ⟨_, get_of_lookup_some hS, .inl rfl⟩

theorem not_attributed_of_lt {SS : Segstateset} {d : Datagram} {f : ℤ}
    (h : (d.header.toi.toNat : ℤ) < SS.min_file_nbr) : ¬Attributed SS d f := by
  rintro ⟨status, hget, -⟩
  rw [get_of_lt h] at hget
  cases hget

/-- Whatever the file and the state of the receiver: a datagram of file `f`, a number of the
window, is taken for one of segment `f` exactly when `f` fits into the header. -/
theorem attributed_iff_lt {sender : Host N} {file : Option (List UInt8)} {f : ℕ} {nExtra : ℤ}
    {d : Datagram} (hd : d ∈ (xmitFile sender file f nExtra).sent) {R : Receiver M}
    (hw : R.SS.InWindow f) : Attributed R.SS (cutDatagram d) f ↔ f < 65536 := by
  have htoi : ((cutDatagram d).header.toi.toNat : ℤ) = f % 65536 := carriesNbr_xmitFile _ _ _ _ d hd
  rw [inWindow_iff] at hw
  constructor
  · intro hat
    by_contra hge
    exact not_attributed_of_lt (by omega) hat
  · exact fun hlt => attributed_of_eq hw (by omega)

/-! ## A stream that gets there -/

/-- Between two segments of a stream, with the newest one still being received. -/
def Control.streaming (k : ℤ) : Control :=
  { min := k, recv := k, mode := fun g => if g = k then some .receiving else none
    writing := false, write_ok := true, started := true }

theorem Control.timeout_get_init : (Control.init.get 0).timeout = .streaming 0 := by
  simp [Control.init, Control.get, Control.enter, Control.timeout, Control.start,
    Control.streaming, segstateSetN]

/-- The next segment has arrived, and the one before it is being written. -/
def Control.overtaken (k : ℤ) : Control :=
  { min := k, recv := k + 1
    mode := fun g => if g = k + 1 then some .receiving else if g = k then some .writing else none
    writing := true, write_ok := true, started := true }

theorem Control.get_streaming (k : ℤ) :
    (Control.streaming k).get (k + 1) = .overtaken k := by
  have hin : (streaming k).min ≤ k + 1 ∧ k + 1 < (streaming k).min + segstateSetN := by
    change k ≤ k + 1 ∧ k + 1 < k + 4
    omega
  have hready : ((streaming k).enter (k + 1)).mode ((streaming k).enter (k + 1)).min =
      some .readyToWrite := by
    simp [enter, streaming, release]
  rw [get, if_pos ⟨hin, if_neg (by omega)⟩, if_pos ⟨by change k + 1 > k; omega, rfl, rfl⟩, start,
    if_pos hready]
  simp only [enter, streaming, overtaken, Control.mk.injEq, true_and, and_true]
  refine ⟨by omega, ?_⟩
  funext g
  by_cases hg : g = k
  · simp [hg]
  · simp [hg]

theorem Control.finish_overtaken (k : ℤ) :
    (Control.overtaken k).finish = .streaming (k + 1) := by
  rw [finish, start_of_not_ready (by simp [overtaken])]
  simp only [overtaken, streaming, Control.mk.injEq, true_and, and_true]
  funext g
  by_cases hg : g = k
  · simp [hg]
  · simp [hg]

/-- A stream of files of one byte can be received up to any of them. -/
theorem tiny_stream (sender : Host N) (host : Host M) {L : SegmentList} {n : ℕ} (hn : n ≤ 65536)
    (hL : n ≤ L.n_segments) (ready_fd : ℤ) {k : ℕ} (hk : k < n) :
    ∃ t R, Run (SmoothStep sender (tinyFiles n) L host) (Receiver.init host ready_fd) t R ∧
      R.control = .streaming k := by
  have hsmall := smallFiles_tiny n
  have hlen : (tinyFiles n).length ≤ 65536 := by simpa [tinyFiles] using hn
  induction k with
  | zero =>
      obtain ⟨t, R, R₁, es, hrun, -, -, hstep, hctl₁⟩ := tiny_timeout sender host hn (L := L)
        ready_fd [0] (by simpa using hk)
        ⟨by change (0 : ℤ) ≠ _; omega, by decide, by decide, trivial⟩
        (c := Control.init.get 0) rfl (by decide) (by decide) (by decide)
        (by change (0 : ℤ) ≠ _; omega)
      refine ⟨_, R₁, hrun.snoc hstep, ?_⟩
      rw [hctl₁, Control.timeout_get_init]
      rfl
  | succ k ih =>
      obtain ⟨t, R, hrun, hctl⟩ := ih (by omega)
      obtain ⟨hinv, hcar⟩ := carries_of_run hlen hsmall (hrun.mono fun _ _ _ _ hs => hs.2)
      have hmin : R.SS.min_file_nbr = k := congrArg Control.min hctl
      have hsent := sent_tinyDatagram sender hk
      have htoi := toi_tinyDatagram (f := k + 1) (by omega)
      obtain ⟨R₁, es₁, hstep₁, hctl₁⟩ := hinv.exists_recv host (L := L) hcar
        (hsent.genuine hlen hsmall) (by rw [tooLate_iff, htoi, hctl]; simp [Control.streaming])
        (by omega)
      rw [hctl, htoi, Int.natCast_succ, Control.get_streaming] at hctl₁
      have hrun₁ := hrun.snoc ⟨⟨by simp [recvInput], by simp [recvInput]⟩,
        fun _ => .inr ⟨_, hsent, rfl⟩, hstep₁⟩
      have hmin₁ : R₁.SS.min_file_nbr = k := congrArg Control.min hctl₁
      have hfd₁ : R₁.out_fd ≠ -1 := of_decide_eq_true (congrArg Control.writing hctl₁)
      obtain ⟨n', R₂, es₂, hstep₂, hctl₂⟩ :=
        (hinv.step hstep₁).exists_finish host (L := L) hfd₁ (by omega)
      refine ⟨_, R₂, hrun₁.snoc ⟨⟨by simp [writeInput], by simp [writeInput]⟩, ?_, hstep₂⟩, ?_⟩
      · intro htask
        rw [nexttask_writeInput hfd₁] at htask
        cases htask
      · rw [hctl₂, hctl₁, Control.finish_overtaken, Int.natCast_succ]

/-- Traffic of a shorter playlist of such files is traffic of a longer one. -/
theorem SmoothStep.tiny_mono {sender : Host N} {host : Host M} {L : SegmentList} {n m : ℕ}
    (hnm : n ≤ m) {R R' : Receiver M} {i : Input} {es : List Event}
    (hs : SmoothStep sender (tinyFiles n) L host R i R' es) :
    SmoothStep sender (tinyFiles m) L host R i R' es := by
  obtain ⟨hsmooth, hfrom, hstep⟩ := hs
  refine ⟨hsmooth, fun htask => ?_, hstep⟩
  rcases hfrom htask with herr | ⟨d, ⟨f, content, nExtra, hf, hd⟩, hpkt⟩
  · exact .inl herr
  · rw [tinyFiles, List.getElem?_replicate] at hf
    split at hf
    · refine .inr ⟨d, ⟨f, content, nExtra, ?_, hd⟩, hpkt⟩
      rw [tinyFiles, List.getElem?_replicate, if_pos (by omega), hf]
    · cases hf

/-- A list of 65537 files of one byte: the receiver gets as far as to have the last one in
its window, and its packet is dropped. -/
theorem wrapped_packet_dropped :
    ∃ (t : List (Entry (Receiver Unit) Input Event)) (R : Receiver Unit),
      Run (SmoothStep refusingHost (tinyFiles 65537) (tinyList 65537) refusingHost)
        (Receiver.init refusingHost (-1)) t R ∧
      R.SS.InWindow 65536 ∧
      tinyDatagram 65536 ∈ (xmitFile refusingHost (some [0]) (65536 : ℕ) 0).sent ∧
      ¬Attributed R.SS (cutDatagram (tinyDatagram 65536)) 65536 ∧
      receivePacket refusingHost R (cutDatagram (tinyDatagram 65536)) (some 3) = .ok (R, []) := by
  obtain ⟨t, R, hrun, hctl⟩ := tiny_stream refusingHost refusingHost (L := tinyList 65537)
    (n := 65536) le_rfl (by decide) (-1) (k := 65535) (by decide)
  have hmin : R.SS.min_file_nbr = 65535 := congrArg Control.min hctl
  have htoi : ((tinyDatagram 65536).header.toi.toNat : ℤ) = (65536 : ℕ) % 65536 :=
    toi_xmitHeader ..
  have hlow : ((cutDatagram (tinyDatagram 65536)).header.toi.toNat : ℤ) < R.SS.min_file_nbr := by
    change ((tinyDatagram 65536).header.toi.toNat : ℤ) < _
    omega
  have hrun' := hrun.mono (fun _ _ _ _ hs => hs.tiny_mono (by decide : 65536 ≤ 65537))
  refine ⟨t, R, hrun', ?_, first_mem_sent refusingHost (by decide) _, not_attributed_of_lt hlow, ?_⟩
  · rw [inWindow_iff]
    omega
  · exact receivePacket_outside fun hw => by
      rw [inWindow_iff] at hw
      omega

/-- The first packet of the file after the one that is received. -/
theorem attributed_iff_lt_tiny :
    ∃ (t : List (Entry (Receiver Unit) Input Event)) (R : Receiver Unit),
      Run (SmoothStep refusingHost (tinyFiles 4) (tinyList 4) refusingHost)
        (Receiver.init refusingHost (-1)) t R ∧ R.SS.min_file_nbr = 2 ∧
      Attributed R.SS (cutDatagram (tinyDatagram 3)) (3 : ℕ) := by
  obtain ⟨t, R, hrun, hctl⟩ := tiny_stream refusingHost refusingHost (L := tinyList 4) (n := 4)
    (by decide) le_rfl (-1) (k := 2) (by decide)
  have hmin : R.SS.min_file_nbr = 2 := congrArg Control.min hctl
  refine ⟨t, R, hrun, hmin, (attributed_iff_lt (first_mem_sent refusingHost (by decide) _) ?_).mpr
    (by decide)⟩
  rw [inWindow_iff]
  omega

end RqRoute
