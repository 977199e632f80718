import RqRoute.Verification.Receiver.Control
import RqRoute.Verification.Sender.Emission

/-! # Traffic of a playlist

Datagrams that `xmit_file` sends for the files of a playlist, and what the receiver knows
of the files while it sees no others. -/

namespace RqRoute

open Checked Segstateset Transition

variable {M N : Type}

/-- A datagram of one of the files, whatever the number of repair symbols. -/
def Sent (sender : Host N) (files : List (List UInt8)) (d : Datagram) : Prop :=
  ∃ (f : ℕ) (content : List UInt8) (nExtra : ℤ), files[f]? = some content ∧
    d ∈ (xmitFile sender (some content) f nExtra).sent

/-- Every file of the playlist is one code block. -/
def SmallFiles (files : List (List UInt8)) : Prop := ∀ content ∈ files, SmallFile content.length

/-- What the checks of the receiver see of such a datagram. -/
structure Genuine (files : List (List UInt8)) (d : Datagram) : Prop where
  file : ∃ content, files[d.header.toi.toNat]? = some content ∧ SmallFile content.length ∧
    d.header.tos.toNat = content.length
  payload_le : d.payload.length ≤ 1024

/-- The file numbers of up to 65536 files survive the header. -/
theorem Sent.genuine {sender : Host N} {files : List (List UInt8)}
    (hlen : files.length ≤ 65536) (hsmall : SmallFiles files) {d : Datagram}
    (h : Sent sender files d) : Genuine files d := by
  obtain ⟨f, content, nExtra, hf, hd⟩ := h
  have hcontent := hsmall content (List.mem_of_getElem? hf)
  have hem := xmitFile_sent hcontent hd
  have hlt : f < files.length := (List.getElem?_eq_some_iff.mp hf).1
  have htoi : d.header.toi.toNat = f := by
    have := hem.toi
    omega
  exact ⟨⟨content, by rw [htoi, hf], hcontent, hem.tos hcontent⟩, hem.payload_le⟩

theorem Genuine.cutDatagram_eq {files : List (List UInt8)} {d : Datagram} (h : Genuine files d) :
    cutDatagram d = d := EmittedBy.cutDatagram_eq h.payload_le

theorem Genuine.toi_lt {files : List (List UInt8)} {d : Datagram} (h : Genuine files d) :
    d.header.toi.toNat < files.length := by
  obtain ⟨content, hf, -⟩ := h.file
  exact (List.getElem?_eq_some_iff.mp hf).1

/-! ## Facts about every segment of the window -/

/-- What holds of new segments and is kept by the operations on a segment holds of every
segment of the window. -/
theorem Receiver.Step.segments {L : SegmentList} {host : Host M} {R R' : Receiver M} {i : Input}
    {es : List Event} {P : ℤ → Segstate → Prop}
    (hmark : ∀ f S n, P f S → P f (markReady n S))
    (hadd : ∀ f S S' header payload, P f S → segstateAddPacket S header payload = .ok S' → P f S')
    (hprep : ∀ f S (fd : ℤ) c m, P f S → segstatePrepareOutput host S fd c = .ok m → P f m.S)
    (hwrite : ∀ f S c taken w, P f S →
      segstateWriteMore host { S, codec_mem := c } taken = .ok w → P f w.mem.S)
    (hinit : ∀ d, nexttask R i.sel = .ok (some .recv) → i.recv = .packet d →
      R.SS.InWindow (cutDatagram d).header.toi.toNat →
      P (cutDatagram d).header.toi.toNat
        (initialSegment host (cutDatagram d).header.toi.toNat (cutDatagram d).header.tos.toNat))
    (hs : R.Step L host i R' es) (h : ∀ f S, R.SS.lookup f = some S → P f S) :
    ∀ f S, R'.SS.lookup f = some S → P f S := by
  have hput : ∀ (SS : Segstateset) f S, SS.InWindow f → (∀ g T, SS.lookup g = some T → P g T) →
      P f S → ∀ g T, (SS.put f S).lookup g = some T → P g T := by
    intro SS f S hin hall hS g T hT
    rw [lookup_put hin] at hT
    split at hT
    · rename_i hg
      rw [hg, ← Option.some.inj hT]
      exact hS
    · exact hall g T hT
  have hstarts : ∀ (R R' : Receiver M) opened es, R.Starts host opened es R' →
      (∀ g T, R.SS.lookup g = some T → P g T) → ∀ g T, R'.SS.lookup g = some T → P g T := by
    intro R R' opened es hstart hall
    cases hstart with
    | idle | refused => exact hall
    | opens hS _ _ hm =>
        exact hput _ _ _ R.SS.inWindow_min hall (hprep _ _ _ _ _ (hall _ _ hS) hm)
  obtain ⟨-, -, hpass⟩ := step_iff.mp hs
  cases hpass with
  | @recv d _ _ htask hpkt hgets =>
      have hinit' := hinit d htask hpkt
      generalize cutDatagram d = d at hgets hinit'
      have henter : ∀ (hin : R.SS.InWindow d.header.toi.toNat) g T,
          (R.enter host d.header.toi.toNat d.header.tos.toNat).SS.lookup g = some T → P g T := by
        intro hin g T hT
        rw [lookup_enter host hin] at hT
        split at hT
        · rename_i hg
          rw [hg, ← Option.some.inj hT]
          exact hinit' hin
        · split at hT
          · obtain ⟨T₀, hT₀, rfl⟩ := Option.map_eq_some_iff.mp hT
            exact hmark _ _ _ (h g T₀ hT₀)
          · exact h g T hT
      cases hgets with
      | outside => exact h
      | known hS hok =>
          exact hput _ _ _ (lookup_inWindow hS) h (hadd _ _ _ _ _ (h _ _ hS) hok)
      | first hin _ _ _ hok =>
          exact hput _ _ _ ((inWindow_enter ..).mpr hin) (henter hin)
            (hadd _ _ _ _ _ (hinit' hin) hok)
      | newest hin _ _ _ _ _ hstart hok =>
          have hself := lookup_enter host hin d.header.tos.toNat d.header.toi.toNat
          rw [if_pos rfl] at hself
          have hin₁ := lookup_inWindow (hstart.lookup_receiving hself rfl).1
          exact hput _ _ _ hin₁ (hstarts _ _ _ _ hstart (henter hin))
            (hadd _ _ _ _ _ (hinit' hin) hok)
  | write _ hwrites =>
      cases hwrites with
      | more hS hw _ =>
          exact hput _ _ _ R.SS.inWindow_min h (hwrite _ _ _ _ _ (h _ _ hS) hw)
      | last hS hw _ hstart =>
          refine hstarts _ _ _ _ hstart fun g T hT => ?_
          change (segstatesetIncMinFileNbr _).lookup g = some T at hT
          rw [lookup_incMinFileNbr, min_put] at hT
          split at hT
          · cases hT
          · rename_i hg
            rw [lookup_put_of_ne R.SS.inWindow_min _ hg] at hT
            exact h g T hT
  | startWrite _ hstart => exact hstarts _ _ _ _ hstart h
  | signalReady => exact h

theorem segstatePrepareOutput_file_len {host : Host M} {S : Segstate} {fd : ℤ}
    {c : RqMemBlocks M} {m : SegMem M} (h : segstatePrepareOutput host S fd c = .ok m) :
    m.S.file_len = S.file_len := by
  simp only [segstatePrepareOutput, loadCbBuf, bind_eq_ok, pure_eq_ok, Except.ok.injEq] at h
  obtain ⟨_, -, _, -, _, -, _, -, rfl⟩ := h
  rfl

theorem segstateWriteMore_file_len {host : Host M} {m : SegMem M} {taken : Option ℕ}
    {w : WriteMore M} (h : segstateWriteMore host m taken = .ok w) :
    w.mem.S.file_len = m.S.file_len := by
  simp only [segstateWriteMore, loadCbBuf, bind_eq_ok, pure_eq_ok] at h
  obtain ⟨_, -, _, -, h⟩ := h
  split at h
  · cases h
    rfl
  · simp only [bind_eq_ok] at h
    obtain ⟨_, -, _, -, h⟩ := h
    cases taken with
    | none =>
        cases h
        rfl
    | some k =>
        simp only [bind_eq_ok] at h
        obtain ⟨_, -, h⟩ := h
        split at h
        · split at h
          · cases h
            rfl
          · simp only [bind_eq_ok] at h
            obtain ⟨_, ⟨_, -, _, -, _, -, hload⟩, h⟩ := h
            cases hload
            cases h
            rfl
        · cases h
          rfl

/-- The segments of the window are files of the playlist. -/
def Receiver.Carries (files : List (List UInt8)) (R : Receiver M) : Prop :=
  ∀ f S, R.SS.lookup f = some S → ∃ content, files[f.toNat]? = some content ∧
    S.file_len = content.length

/-- What a pass receives is a datagram of the playlist; receiving may also fail. -/
def Receiver.FromPlaylist (sender : Host N) (files : List (List UInt8)) (R : Receiver M)
    (i : Input) : Prop :=
  nexttask R i.sel = .ok (some .recv) →
    i.recv = .error ∨ ∃ d, Sent sender files d ∧ i.recv = .packet d

theorem Receiver.FromPlaylist.genuine {sender : Host N} {files : List (List UInt8)}
    {R : Receiver M} {i : Input} (h : R.FromPlaylist sender files i)
    (hlen : files.length ≤ 65536) (hsmall : SmallFiles files)
    (htask : nexttask R i.sel = .ok (some .recv)) {d : Datagram} (hpkt : i.recv = .packet d) :
    Genuine files d := by
  rcases h htask with hrecv | ⟨d', hd', hrecv⟩
  · rw [hpkt] at hrecv
    cases hrecv
  · rw [hpkt] at hrecv
    cases hrecv
    exact hd'.genuine hlen hsmall

/-- The steps of the receiver under traffic of the playlist. -/
def PlaylistStep (sender : Host N) (files : List (List UInt8)) (L : SegmentList) (host : Host M)
    (R : Receiver M) (i : Input) (R' : Receiver M) (es : List Event) : Prop :=
  R.FromPlaylist sender files i ∧ R.Step L host i R' es

/-- Traffic of a playlist, with all opens and writes succeeding. -/
def SmoothStep (sender : Host N) (files : List (List UInt8)) (L : SegmentList) (host : Host M)
    (R : Receiver M) (i : Input) (R' : Receiver M) (es : List Event) : Prop :=
  (i.opened ≠ none ∧ i.taken ≠ none) ∧ PlaylistStep sender files L host R i R' es

theorem Receiver.Carries.step {L : SegmentList} {host : Host M} {R R' : Receiver M} {i : Input}
    {es : List Event} {files : List (List UInt8)}
    (hgen : ∀ d, nexttask R i.sel = .ok (some .recv) → i.recv = .packet d → Genuine files d)
    (hs : R.Step L host i R' es) (h : R.Carries files) : R'.Carries files := by
  refine hs.segments (P := fun f S => ∃ content, files[f.toNat]? = some content ∧
    S.file_len = content.length) ?_ ?_ ?_ ?_ ?_ h
  · rintro f S n ⟨content, hf, hlen⟩
    refine ⟨content, hf, ?_⟩
    unfold markReady
    split <;> exact hlen
  · rintro f S S' header payload ⟨content, hf, hlen⟩ hadd
    obtain ⟨-, -, -, cbs, rfl⟩ := segstateAddPacket_eq_ok hadd
    exact ⟨content, hf, hlen⟩
  · rintro f S fd c m ⟨content, hf, hlen⟩ hprep
    exact ⟨content, hf, (segstatePrepareOutput_file_len hprep).trans hlen⟩
  · rintro f S c taken w ⟨content, hf, hlen⟩ hwrite
    exact ⟨content, hf, (segstateWriteMore_file_len hwrite).trans hlen⟩
  · intro d htask hpkt _
    have hd := hgen d htask hpkt
    obtain ⟨content, hf, -, htos⟩ := hd.file
    rw [hd.cutDatagram_eq]
    exact ⟨content, hf, htos⟩

/-- The invariants under traffic of a playlist. -/
theorem carries_of_run {sender : Host N} {files : List (List UInt8)}
    (hlen : files.length ≤ 65536) (hsmall : SmallFiles files) {L : SegmentList} {host : Host M}
    {ready_fd : ℤ} {R : Receiver M} {t : List (Entry (Receiver M) Input Event)}
    (h : Run (PlaylistStep sender files L host) (Receiver.init host ready_fd) t R) :
    R.Inv ∧ R.Carries files := by
  refine h.invariant (P := fun R => R.Inv ∧ R.Carries files)
    ⟨inv_init host ready_fd, fun f S hS => ?_⟩ ?_
  · simp [Receiver.init] at hS
  · rintro R i R' es ⟨hinv, hcar⟩ ⟨hfrom, hstep⟩
    exact ⟨hinv.step hstep,
      hcar.step (fun d htask hpkt => hfrom.genuine hlen hsmall htask hpkt) hstep⟩

end RqRoute
