import RqRoute.Verification.Receiver.Traffic

/-! # Steps the receiver can take

Under the invariant a pass goes through unless it receives a packet it must refuse, so the
steps of the automaton that traffic, time and the output allow can be taken. -/

namespace RqRoute

open Checked Segstateset Transition

variable {M N : Type} {host : Host M} {R : Receiver M} {files : List (List UInt8)} {d : Datagram}

/-! ## Packets of the playlist -/

/-- A packet of the playlist comes too late when its segment is no longer received. -/
def Receiver.TooLate (R : Receiver M) (d : Datagram) : Prop :=
  ∃ S, R.SS.lookup d.header.toi.toNat = some S ∧ S.mode ≠ .receiving

variable (host) in
/-- Unless it comes too late, a packet of the playlist passes every check. -/
theorem Receiver.Inv.receivePacket_ok (h : R.Inv) (hcar : R.Carries files)
    (hd : Genuine files d) (hlate : ¬R.TooLate d) (opened : Option ℕ) :
    ∃ x, receivePacket host R d opened = .ok x := by
  cases hget : receivePacket host R d opened with
  | ok x => exact ⟨x, rfl⟩
  | error e =>
      exfalso
      obtain ⟨content, hf, hsmall, htos⟩ := hd.file
      have hrefuse : ∀ S len kept, S.Receives d.header.toi.toNat len kept → S.mode = .receiving →
          len = content.length → segstateAddPacket S d.header d.payload ≠ .error e := by
        intro S len kept hr hmode hlen hadd
        rcases hr.addPacket_eq_error (p := (d.header, d.payload)) hadd with
          ⟨-, hne⟩ | ⟨-, hne⟩ | ⟨-, hne⟩ | ⟨-, hgt⟩
        · exact hne rfl
        · exact hne (htos.trans hlen.symm)
        · exact hne hmode
        · have hle := hd.payload_le
          simp only at hgt
          omega
      rcases h.receivePacket_eq_error hget with ⟨-, hno, -⟩ | ⟨S, hadd, hS | ⟨-, -, rfl⟩⟩
      · rw [htos] at hno
        exact hno hsmall
      · have hmode : S.mode = .receiving := by
          by_contra hne
          exact hlate ⟨S, hS, hne⟩
        obtain ⟨len, kept, hr⟩ := (h.gathers hS (by simp [hmode])).receives
        obtain ⟨content', hf', hlen⟩ := hcar _ S hS
        rw [Int.toNat_natCast, hf] at hf'
        obtain rfl := Option.some.inj hf'
        exact hrefuse S len kept hr hmode (hr.file_len_eq.symm.trans hlen) hadd
      · exact hrefuse _ _ _ (receives_initialSegment host _ (by rw [htos]; exact hsmall)) rfl htos
          hadd

/-- A packet that comes too late is the end of the program. -/
theorem Receiver.Inv.receivePacket_late (h : R.Inv) (hcar : R.Carries files)
    (hd : Genuine files d) (hlate : R.TooLate d) (opened : Option ℕ) :
    receivePacket host R d opened = .error .addPacketMode := by
  obtain ⟨S, hS, hmode⟩ := hlate
  obtain ⟨content, hf, hsmall, htos⟩ := hd.file
  obtain ⟨content', hf', hlen⟩ := hcar _ S hS
  rw [Int.toNat_natCast, hf] at hf'
  obtain rfl := Option.some.inj hf'
  have hnbr := h.placed.file_nbr hS
  have hP : S.P.n_cb = 1 := by
    rcases h.segs _ S hS with hg | ⟨-, hdr⟩
    · obtain ⟨_, _, hr⟩ := hg.receives
      rw [hr.P_eq]
      rfl
    · obtain ⟨_, _, hw⟩ := hdr.writes
      rw [hw.P_eq]
      rfl
  rw [receivePacket_known hS, segstateAddPacket, check_bind hnbr.symm,
    check_bind (by rw [htos, hlen]), check_bind hP, check_bind (Nat.zero_le _)]
  simp [check, hmode]

theorem Receiver.Inv.loopPass_late (h : R.Inv) (hcar : R.Carries files) (hd : Genuine files d)
    (hlate : R.TooLate d) {L : SegmentList} (hmin : R.SS.min_file_nbr ≠ L.n_segments) {i : Input}
    (htask : nexttask R i.sel = .ok (some .recv)) (hpkt : i.recv = .packet d) :
    loopPass L host R i = .error .addPacketMode := by
  rw [loopPass, segstatesetGetMinFileNbr, if_neg hmin, htask, ok_bind, hpkt]
  simp only [hd.cutDatagram_eq, h.receivePacket_late hcar hd hlate]
  rfl

/-- The newest segment is a file of the playlist. -/
theorem Receiver.Inv.recv_lt (h : R.Inv) (hcar : R.Carries files) (hst : R.started = true) :
    R.recv_file_nbr < files.length := by
  obtain ⟨-, S, hS, -⟩ := h.newest hst
  obtain ⟨content, hf, -⟩ := hcar _ S hS
  have := (List.getElem?_eq_some_iff.mp hf).1
  omega

/-- The window never leaves the playlist. -/
theorem Receiver.Inv.min_lt (h : R.Inv) (hcar : R.Carries files) (hst : R.started = true) :
    R.SS.min_file_nbr < files.length := by
  have hrecv := h.recv_lt hcar hst
  have hin := (h.newest hst).1.1
  omega

theorem Receiver.Inv.started_of_lookup (h : R.Inv) {f : ℤ} {S : Segstate}
    (hS : R.SS.lookup f = some S) : R.started = true := by
  by_contra hno
  rw [(h.unstarted (by simpa using hno)).2] at hS
  cases hS

theorem tooLate_iff :
    R.TooLate d ↔ R.control.mode d.header.toi.toNat = some .readyToWrite ∨
      R.control.mode d.header.toi.toNat = some .writing := by
  constructor
  · rintro ⟨S, hS, hmode⟩
    rw [control_mode hS]
    cases hm : S.mode with
    | receiving => exact absurd hm hmode
    | readyToWrite => exact .inl rfl
    | writing => exact .inr rfl
  · rintro (h | h)
    all_goals
      obtain ⟨S, hS, hm⟩ := control_mode_eq_some.mp h
      exact ⟨S, hS, by simp [hm]⟩

/-! ## Inputs -/

/-- A datagram arrives, and opening succeeds. -/
def recvInput (d : Datagram) : Input :=
  { sel := { rv := 1, rsock := true, wfd := false }, recv := .packet d
    opened := some 3, taken := some 0 }

/-- The timeout passes, and opening succeeds. -/
def timeoutInput : Input :=
  { sel := { rv := 0, rsock := false, wfd := false }, recv := .error
    opened := some 3, taken := some 0 }

/-- The output takes `n` bytes, and opening succeeds. -/
def writeInput (n : ℕ) : Input :=
  { sel := { rv := 1, rsock := false, wfd := true }, recv := .error
    opened := some 3, taken := some n }

theorem mayReport_recvInput (R : Receiver M) (d : Datagram) : R.MayReport (recvInput d).sel :=
  .inr ⟨rfl, by simp [recvInput], by simp [recvInput]⟩

theorem nexttask_recvInput (R : Receiver M) (d : Datagram) :
    nexttask R (recvInput d).sel = .ok (some .recv) := by
  simp [nexttask, recvInput, check]

theorem mayReport_timeoutInput (h : R.HasTimeout) : R.MayReport timeoutInput.sel :=
  .inr ⟨rfl, by simp [timeoutInput], fun _ => h⟩

theorem nexttask_timeoutInput (h : R.out_fd = -1) :
    nexttask R timeoutInput.sel = .ok (some .startWrite) := by
  simp [nexttask, timeoutInput, h]

theorem mayReport_writeInput (h : R.out_fd ≠ -1) (n : ℕ) : R.MayReport (writeInput n).sel :=
  .inr ⟨rfl, fun _ => .inl h, by simp [writeInput]⟩

theorem nexttask_writeInput (h : R.out_fd ≠ -1) (n : ℕ) :
    nexttask R (writeInput n).sel = .ok (some .write) := by
  simp [nexttask, writeInput, h, check]

theorem fromPlaylist_timeout {sender : Host N} (h : R.out_fd = -1) :
    R.FromPlaylist sender files timeoutInput := by
  intro htask
  rw [nexttask_timeoutInput h] at htask
  cases htask

theorem fromPlaylist_write {sender : Host N} (h : R.out_fd ≠ -1) (n : ℕ) :
    R.FromPlaylist sender files (writeInput n) := by
  intro htask
  rw [nexttask_writeInput h] at htask
  cases htask

/-! ## Steps -/

variable {L : SegmentList}

variable (host) in
/-- A packet of the playlist that is not too late can be received. -/
theorem Receiver.Inv.exists_recv (h : R.Inv) (hcar : R.Carries files) (hd : Genuine files d)
    (hlate : ¬R.TooLate d) (hmin : R.SS.min_file_nbr ≠ L.n_segments) :
    ∃ R' es, R.Step L host (recvInput d) R' es ∧ R'.control = R.control.get d.header.toi.toNat := by
  obtain ⟨⟨R', es⟩, hget⟩ := h.receivePacket_ok host hcar hd hlate (some 3)
  have hgets := gets_iff.mp hget
  refine ⟨R', es, step_iff.mpr ⟨mayReport_recvInput R d, hmin, ?_⟩, ?_⟩
  · exact .recv (nexttask_recvInput R d) rfl (by rw [hd.cutDatagram_eq]; exact hgets)
  · exact h.control_gets (by simp) hgets

variable (host) in
theorem Receiver.Inv.exists_timeout (h : R.Inv) (ht : R.HasTimeout)
    (hmin : R.SS.min_file_nbr ≠ L.n_segments) :
    ∃ R' es, R.Step L host timeoutInput R' es ∧ R'.control = R.control.timeout := by
  have hperm := h.permit ht.2.1
  obtain ⟨r, hr⟩ := hperm.taskStartWrite_ok host ht.1 (some 3)
  have hstarts := (starts_iff (R := { R with write_ok := true }) ht.1).mp ⟨r, hr, rfl, rfl⟩
  refine ⟨Receiver.after { R with write_ok := true } r, r.events,
    step_iff.mpr ⟨mayReport_timeoutInput ht, hmin, ?_⟩, ?_⟩
  · exact .startWrite (nexttask_timeoutInput ht.1) hstarts
  · exact hperm.control_starts ht.1 (by simp) hstarts

variable (host) in
/-- The output may take everything that is left of its segment. -/
theorem Receiver.Inv.exists_finish (h : R.Inv) (hfd : R.out_fd ≠ -1)
    (hmin : R.SS.min_file_nbr ≠ L.n_segments) :
    ∃ n R' es, R.Step L host (writeInput n) R' es ∧ R'.control = R.control.finish := by
  obtain ⟨S, hS, hd⟩ := h.drains hfd
  obtain ⟨file_len, offs, hwr⟩ := hd.writes
  have hlt := hwr.offs_lt
  have hopen : S.out_fd ≠ -1 := by
    rw [hd.out_fd_eq]
    exact hfd
  have hwrite := hwr.writeMore_some hopen host R.codec_mem file_len
  rw [if_pos (by omega)] at hwrite
  obtain ⟨r, hr⟩ := (h.retire (m := { S := S.finish, codec_mem := R.codec_mem }) hS hwr.mode_eq
    hwr.file_nbr_eq).taskStartWrite_ok host rfl (some 3)
  have hstart := (starts_iff rfl).mp ⟨r, hr, rfl, rfl⟩
  have hwrites : R.Writes host (some file_len) (some 3) _ _ :=
    .last hS hwrite (by simp; omega) hstart
  exact ⟨file_len, _, _, step_iff.mpr ⟨mayReport_writeInput hfd file_len, hmin,
    .write (nexttask_writeInput hfd file_len) hwrites⟩,
    h.control_retire hS hwr.mode_eq hwr.file_nbr_eq (by simp) hstart⟩

/-! ## Playlists of tiny files -/

/-- A playlist of files of one byte. -/
def tinyFiles (n : ℕ) : List (List UInt8) := List.replicate n [0]

def tinyList (n : ℕ) : SegmentList :=
  { n_segments := n
    segments := { size := n, cell := fun _ => some { file_name := ['f'] } } }

/-- The only datagram of file `f`. -/
def tinyDatagram (f : ℕ) : Datagram := sourceDatagram [0] f 0

theorem smallFiles_tiny (n : ℕ) : SmallFiles (tinyFiles n) := by
  intro content hc
  rw [(List.mem_replicate.mp hc).2]
  decide

theorem sent_tinyDatagram (sender : Host N) {n f : ℕ} (h : f < n) :
    Sent sender (tinyFiles n) (tinyDatagram f) := by
  refine ⟨f, [0], 0, ?_, first_mem_sent sender (by decide) f⟩
  rw [tinyFiles, List.getElem?_replicate, if_pos h]

theorem toi_tinyDatagram {f : ℕ} (h : f < 65536) : (tinyDatagram f).header.toi.toNat = f := by
  have htoi := toi_xmitHeader routeEnsIdSource (oneBlock (segSymbols [(0 : UInt8)].length))
    [(0 : UInt8)].length f 0
  change ((tinyDatagram f).header.toi.toNat : ℤ) = _ at htoi
  omega

/-- The packets of these files can be received one after the other. -/
def Control.Takes (n : ℤ) : Control → List ℕ → Prop
  | _, [] => True
  | c, f :: fs => c.min ≠ n ∧ c.mode f ≠ some .readyToWrite ∧ c.mode f ≠ some .writing ∧
      Takes n (c.get f) fs

instance Control.decidableTakes (n : ℤ) : (c : Control) → (fs : List ℕ) → Decidable (c.Takes n fs)
  | _, [] => isTrue trivial
  | c, f :: fs =>
    have := decidableTakes n (c.get f) fs
    inferInstanceAs (Decidable (_ ∧ _ ∧ _ ∧ _))

/-- A run that receives the packets of some files. -/
theorem tiny_run (sender : Host N) (host : Host M) {n : ℕ} (hn : n ≤ 65536) (ready_fd : ℤ)
    (fs : List ℕ) (hfs : ∀ f ∈ fs, f < n) (htakes : Control.init.Takes L.n_segments fs) :
    ∃ t R, Run (SmoothStep sender (tinyFiles n) L host) (Receiver.init host ready_fd) t R ∧
      t.map Entry.input = fs.map (fun f => recvInput (tinyDatagram f)) ∧
      R.control = fs.foldl (fun c f => c.get f) Control.init := by
  suffices hfrom : ∀ (R₀ : Receiver M) t₀,
      Run (SmoothStep sender (tinyFiles n) L host) (Receiver.init host ready_fd) t₀ R₀ →
      R₀.control.Takes L.n_segments fs →
      ∃ t R, Run (SmoothStep sender (tinyFiles n) L host) (Receiver.init host ready_fd)
          (t₀ ++ t) R ∧ t.map Entry.input = fs.map (fun f => recvInput (tinyDatagram f)) ∧
        R.control = fs.foldl (fun c f => c.get f) R₀.control by
    have h := hfrom _ [] .nil (by rw [control_init]; exact htakes)
    rw [control_init] at h
    exact h
  clear htakes
  induction fs with
  | nil => exact fun R₀ t₀ hrun _ => ⟨[], R₀, by simpa using hrun, rfl, rfl⟩
  | cons f fs ih =>
      rintro R₀ t₀ hrun ⟨hmin, hready, hwriting, htakes⟩
      have hlt : f < n := hfs f List.mem_cons_self
      have hsent := sent_tinyDatagram sender hlt
      have hlen : (tinyFiles n).length ≤ 65536 := by simpa [tinyFiles] using hn
      have htoi := toi_tinyDatagram (f := f) (by omega)
      obtain ⟨hinv, hcar⟩ := carries_of_run hlen (smallFiles_tiny n)
        (hrun.mono fun _ _ _ _ hs => hs.2)
      obtain ⟨R₁, es, hstep, hctl⟩ := hinv.exists_recv host (L := L) hcar
        (hsent.genuine hlen (smallFiles_tiny n)) (by rw [tooLate_iff, htoi]; tauto) hmin
      rw [htoi] at hctl
      obtain ⟨t, R, hrun', hinputs, hctl'⟩ := ih (fun g hg => hfs g (List.mem_cons_of_mem _ hg))
        R₁ _ (hrun.snoc ⟨⟨by simp [recvInput], by simp [recvInput]⟩,
          fun _ => .inr ⟨_, hsent, rfl⟩, hstep⟩) (by rw [hctl]; exact htakes)
      refine ⟨⟨R₀, recvInput (tinyDatagram f), es⟩ :: t, R, ?_, ?_, ?_⟩
      · rw [List.append_assoc] at hrun'
        exact hrun'
      · rw [List.map_cons, hinputs, List.map_cons]
      · rw [hctl', hctl, List.foldl_cons]

/-- The deadline may pass after such a run. -/
theorem tiny_timeout (sender : Host N) (host : Host M) {n : ℕ} (hn : n ≤ 65536) (ready_fd : ℤ)
    (fs : List ℕ) (hfs : ∀ f ∈ fs, f < n) (htakes : Control.init.Takes L.n_segments fs)
    {c : Control} (hc : fs.foldl (fun c f => c.get f) Control.init = c) (hst : c.started = true)
    (hidle : c.writing = false) (hok : c.write_ok = false) (hmin : c.min ≠ L.n_segments) :
    ∃ t R R₁ es, Run (SmoothStep sender (tinyFiles n) L host) (Receiver.init host ready_fd) t R ∧
      t.map Entry.input = fs.map (fun f => recvInput (tinyDatagram f)) ∧ R.control = c ∧
      SmoothStep sender (tinyFiles n) L host R timeoutInput R₁ es ∧ R₁.control = c.timeout := by
  obtain ⟨t, R, hrun, hinputs, hctl⟩ := tiny_run sender host hn ready_fd fs hfs htakes
  rw [hc] at hctl
  subst hctl
  have hinv := inv_of_run (hrun.mono fun _ _ _ _ hs => hs.2.2)
  have hfd : R.out_fd = -1 := by simpa using of_decide_eq_false hidle
  have hblocked : ¬R.write_ok = true := by simpa [Receiver.control] using hok
  obtain ⟨R₁, es, hstep, hctl₁⟩ := hinv.exists_timeout host ⟨hfd, hst, hblocked⟩ hmin
  exact ⟨t, R, R₁, es, hrun, hinputs, rfl, ⟨⟨by simp [timeoutInput], by simp [timeoutInput]⟩,
    fromPlaylist_timeout hfd, hstep⟩, hctl₁⟩

end RqRoute
