import RqRoute.Library.Transition
import RqRoute.Verification.Receiver.Pass
import RqRoute.Verification.Segstate.Output

/-! # The invariant of the receive loop

Which segment is being written, which ones are released for it, and where the newest one
lies in the window. -/

namespace RqRoute

open Checked Segstateset Transition

variable {M : Type}

/-- A segment that is received, or waits to be written. -/
structure Segstate.Gathers (S : Segstate) (f : ℤ) : Prop where
  mode_ne : S.mode ≠ .writing
  out_fd_eq : S.out_fd = -1
  receives : ∃ file_len kept, S.Receives f file_len kept

/-- A segment that is being written to `fd`. -/
structure Segstate.Drains (S : Segstate) (f fd : ℤ) : Prop where
  out_fd_eq : S.out_fd = fd
  fd_ne : fd ≠ -1
  writes : ∃ file_len offs, S.Writes f file_len offs

theorem Segstate.Drains.mode_eq {S : Segstate} {f fd : ℤ} (h : S.Drains f fd) :
    S.mode = .writing := by
  obtain ⟨_, _, hw⟩ := h.writes
  exact hw.mode_eq

/-- What holds whenever the loop is at its top. -/
structure Receiver.Inv (R : Receiver M) : Prop where
  placed : R.SS.Placed
  min_nonneg : 0 ≤ R.SS.min_file_nbr
  segs : ∀ f S, R.SS.lookup f = some S →
    S.Gathers f ∨ f = R.SS.min_file_nbr ∧ S.Drains f R.out_fd
  older : ∀ f S, R.SS.lookup f = some S → S.mode ≠ .receiving → f < R.recv_file_nbr
  le_recv : ∀ f S, R.SS.lookup f = some S → f ≤ R.recv_file_nbr
  writer : R.out_fd ≠ -1 → ∃ S, R.SS.lookup R.SS.min_file_nbr = some S ∧ S.mode = .writing
  permitted : R.out_fd ≠ -1 → R.write_ok = true
  started_of_ok : R.write_ok = true → R.started = true
  newest : R.started = true → R.SS.InWindow R.recv_file_nbr ∧
    ∃ S, R.SS.lookup R.recv_file_nbr = some S ∧ S.mode = .receiving
  unstarted : R.started = false → R.recv_file_nbr = -1 ∧ ∀ f, R.SS.lookup f = none

theorem inv_init (host : Host M) (ready_fd : ℤ) : (Receiver.init host ready_fd).Inv where
  placed := placed_segstatesetInit 0
  min_nonneg := Int.le_refl 0
  segs f S h := by simp [Receiver.init] at h
  older f S h := by simp [Receiver.init] at h
  le_recv f S h := by simp [Receiver.init] at h
  writer h := absurd rfl h
  permitted h := absurd rfl h
  started_of_ok h := by cases h
  newest h := by cases h
  unstarted _ := ⟨rfl, fun f => lookup_segstatesetInit 0 f⟩

namespace Receiver.Inv

variable {host : Host M} {R : Receiver M}

/-- A segment that is not being written. -/
theorem gathers (h : R.Inv) {f : ℤ} {S : Segstate} (hS : R.SS.lookup f = some S)
    (hmode : S.mode ≠ .writing) : S.Gathers f :=
  (h.segs f S hS).resolve_right fun hd => hmode hd.2.mode_eq

/-- Without an open descriptor nothing is being written. -/
theorem gathers_of_closed (h : R.Inv) (hfd : R.out_fd = -1) {f : ℤ} {S : Segstate}
    (hS : R.SS.lookup f = some S) : S.Gathers f :=
  (h.segs f S hS).resolve_right fun hd => hd.2.fd_ne hfd

/-- The segment that is being written. -/
theorem drains (h : R.Inv) (hfd : R.out_fd ≠ -1) :
    ∃ S, R.SS.lookup R.SS.min_file_nbr = some S ∧ S.Drains R.SS.min_file_nbr R.out_fd := by
  obtain ⟨S, hS, hmode⟩ := h.writer hfd
  refine ⟨S, hS, ?_⟩
  rcases h.segs _ S hS with hg | hd
  · exact absurd hmode hg.mode_ne
  · exact hd.2

/-! ## A packet arrives -/

theorem gathers_initialSegment (host : Host M) (f : ℤ) {file_len : ℕ} (h : SmallFile file_len) :
    (initialSegment host f file_len).Gathers f :=
  ⟨by simp [initialSegment], rfl, file_len, [], receives_initialSegment host f h⟩

theorem gathers_markReady {S : Segstate} {f : ℤ} (h : S.Gathers f) (n : ℤ) :
    (markReady n S).Gathers f := by
  unfold markReady
  split
  · obtain ⟨file_len, kept, hr⟩ := h.receives
    exact ⟨by simp [segstateReadyForWrite], h.out_fd_eq, file_len, kept,
      hr.small, hr.file_nbr_eq, hr.file_len_eq, hr.P_eq, hr.block⟩
  · exact h

theorem markReady_of_writing {S : Segstate} (h : S.mode = .writing) (n : ℤ) :
    markReady n S = S := if_neg fun hr => by simp [h] at hr

variable (host) in
/-- A new segment enters the window. -/
theorem enter (h : R.Inv) {f : ℤ} {file_len : ℕ} (hin : R.SS.InWindow f) (hnonneg : 0 ≤ f)
    (hnone : R.SS.lookup f = none) (hsmall : SmallFile file_len) :
    (R.enter host f file_len).Inv := by
  have hlook := lookup_enter host hin file_len
  have hnew := gathers_initialSegment host f hsmall
  have hplaced : (R.SS.put f (initialSegment host f file_len)).Placed := h.placed.put hin rfl
  -- what an entry of the window was before
  have hold : ∀ g S, (R.enter host f file_len).SS.lookup g = some S →
      (g = f ∧ S = initialSegment host f file_len) ∨
      g ≠ f ∧ ∃ S₀, R.SS.lookup g = some S₀ ∧
        (S = S₀ ∨ f > R.recv_file_nbr ∧ S = markReady f S₀) := by
    intro g S hS
    rw [hlook] at hS
    split at hS
    · rename_i hgf
      exact .inl ⟨hgf, (Option.some.inj hS).symm⟩
    · rename_i hgf
      split at hS
      · rename_i hgt
        obtain ⟨S₀, hS₀, rfl⟩ := Option.map_eq_some_iff.mp hS
        exact .inr ⟨hgf, S₀, hS₀, .inr ⟨hgt, rfl⟩⟩
      · exact .inr ⟨hgf, S, hS, .inl rfl⟩
  refine ⟨?_, ?_, ?_, ?_, ?_, ?_, ?_, ?_, ?_, ?_⟩
  · unfold Receiver.enter
    split
    · exact hplaced.markReadytowrite f
    · exact hplaced
  · rw [min_enter]
    exact h.min_nonneg
  · intro g S hS
    rw [min_enter, out_fd_enter]
    rcases hold g S hS with ⟨rfl, rfl⟩ | ⟨-, S₀, hS₀, hmark⟩
    · exact .inl hnew
    · rcases h.segs g S₀ hS₀ with hg | ⟨hmin, hd⟩
      · rcases hmark with rfl | ⟨-, rfl⟩
        · exact .inl hg
        · exact .inl (gathers_markReady hg f)
      · have hsame : S = S₀ := by
          rcases hmark with rfl | ⟨-, rfl⟩
          · rfl
          · exact markReady_of_writing hd.mode_eq f
        rw [hsame]
        exact .inr ⟨hmin, hd⟩
  · intro g S hS hmode
    rw [recv_enter]
    rcases hold g S hS with ⟨-, rfl⟩ | ⟨-, S₀, hS₀, hmark⟩
    · exact absurd rfl hmode
    · rcases hmark with rfl | ⟨hgt, rfl⟩
      · have := h.older g S hS₀ hmode
        omega
      · have := h.le_recv g S₀ hS₀
        omega
  · intro g S hS
    rw [recv_enter]
    rcases hold g S hS with ⟨rfl, -⟩ | ⟨-, S₀, hS₀, -⟩
    · exact Int.le_max_right ..
    · have := h.le_recv g S₀ hS₀
      omega
  · intro hfd
    rw [out_fd_enter] at hfd
    obtain ⟨S, hS, hmode⟩ := h.writer hfd
    have hne : R.SS.min_file_nbr ≠ f := by
      rintro hmin
      rw [hmin, hnone] at hS
      cases hS
    refine ⟨S, ?_, hmode⟩
    rw [min_enter, hlook, if_neg hne, hS]
    split
    · rw [Option.map_some, markReady_of_writing hmode]
    · rfl
  · rw [out_fd_enter, write_ok_enter]
    exact h.permitted
  · exact fun _ => started_enter ..
  · intro _
    rw [inWindow_enter, recv_enter]
    by_cases hgt : f > R.recv_file_nbr
    · rw [max_eq_right (by omega)]
      exact ⟨hin, _, by rw [hlook, if_pos rfl], rfl⟩
    · -- the newest segment stays what it was
      have hstarted : R.started = true := by
        by_contra hno
        have hun := (h.unstarted (by simpa using hno)).1
        omega
      obtain ⟨hw, S, hS, hmode⟩ := h.newest hstarted
      have hne : R.recv_file_nbr ≠ f := by
        rintro heq
        rw [heq, hnone] at hS
        cases hS
      rw [max_eq_left (by omega)]
      exact ⟨hw, S, by rw [hlook, if_neg hne, if_neg hgt, hS], hmode⟩
  · intro hno
    rw [started_enter] at hno
    cases hno

/-- A segment of the window changes, but not its mode. -/
theorem put (h : R.Inv) {f : ℤ} {S S' : Segstate} (hS : R.SS.lookup f = some S)
    (hmode : S'.mode = S.mode)
    (hS' : S'.Gathers f ∨ f = R.SS.min_file_nbr ∧ S'.Drains f R.out_fd)
    (codec_mem : RqMemBlocks M) :
    Receiver.Inv { R with SS := R.SS.put f S', codec_mem } := by
  have hin := lookup_inWindow hS
  have hnbr : S'.file_nbr = f := by
    rcases hS' with hg | ⟨-, hd⟩
    · obtain ⟨_, _, hr⟩ := hg.receives
      exact hr.file_nbr_eq
    · obtain ⟨_, _, hw⟩ := hd.writes
      exact hw.file_nbr_eq
  -- an entry of the window was there before, in the same mode
  have hold : ∀ g T, (R.SS.put f S').lookup g = some T →
      ∃ T₀, R.SS.lookup g = some T₀ ∧ T.mode = T₀.mode ∧ (g = f ∧ T = S' ∨ T = T₀) := by
    intro g T hT
    rw [lookup_put hin] at hT
    split at hT
    · rename_i hgf
      subst hgf
      obtain rfl := Option.some.inj hT
      exact ⟨S, hS, hmode, .inl ⟨rfl, rfl⟩⟩
    · exact ⟨T, hT, rfl, .inr rfl⟩
  have hnew : ∀ g T₀, R.SS.lookup g = some T₀ →
      ∃ T, (R.SS.put f S').lookup g = some T ∧ T.mode = T₀.mode := by
    intro g T₀ hT₀
    by_cases hgf : g = f
    · subst hgf
      obtain rfl := Option.some.inj (hS.symm.trans hT₀)
      exact ⟨S', lookup_put_self hin S', hmode⟩
    · exact ⟨T₀, by rw [lookup_put_of_ne hin S' hgf, hT₀], rfl⟩
  refine ⟨h.placed.put hin hnbr, h.min_nonneg, ?_, ?_, ?_, ?_, h.permitted, h.started_of_ok, ?_,
    ?_⟩
  · intro g T hT
    obtain ⟨T₀, hT₀, -, ⟨rfl, rfl⟩ | rfl⟩ := hold g T hT
    · exact hS'
    · exact h.segs g T hT₀
  · intro g T hT hne
    obtain ⟨T₀, hT₀, hm, -⟩ := hold g T hT
    exact h.older g T₀ hT₀ (hm ▸ hne)
  · intro g T hT
    obtain ⟨T₀, hT₀, -, -⟩ := hold g T hT
    exact h.le_recv g T₀ hT₀
  · intro hfd
    obtain ⟨T₀, hT₀, hm⟩ := h.writer hfd
    obtain ⟨T, hT, hm'⟩ := hnew _ T₀ hT₀
    exact ⟨T, hT, hm'.trans hm⟩
  · intro hst
    obtain ⟨hw, T₀, hT₀, hm⟩ := h.newest hst
    obtain ⟨T, hT, hm'⟩ := hnew _ T₀ hT₀
    exact ⟨hw, T, hT, hm'.trans hm⟩
  · intro hst
    rw [(h.unstarted hst).2 f] at hS
    cases hS

/-- A packet is added to a segment of the window. -/
theorem addPacket (h : R.Inv) {f : ℤ} {S S' : Segstate} {header : RouteHeader}
    {payload : List UInt8} (hS : R.SS.lookup f = some S)
    (hadd : segstateAddPacket S header payload = .ok S') :
    Receiver.Inv { R with SS := R.SS.put f S' } := by
  have hmode := (segstateAddPacket_eq_ok hadd).2.2.1
  have hg := h.gathers hS (by simp [hmode])
  obtain ⟨file_len, kept, hr⟩ := hg.receives
  obtain ⟨-, hp⟩ := hr.of_addPacket (p := (header, payload)) hadd
  obtain ⟨S₁, hadd₁, hr₁, hmode₁, hfd₁⟩ := hr.addPacket hmode hp
  obtain rfl : S₁ = S' := Except.ok.inj (hadd₁.symm.trans hadd)
  exact h.put hS (hmode₁.trans hmode.symm)
    (.inl ⟨by simp [hmode₁], hfd₁.trans hg.out_fd_eq, file_len, _, hr₁⟩) R.codec_mem

/-! ## Segments are written -/

/-- The oldest segment starts to be written. -/
theorem startWrite (h : R.Inv) (hok : R.write_ok = true) (hfd : R.out_fd = -1) {S : Segstate}
    (hS : R.SS.lookup R.SS.min_file_nbr = some S) (hmode : S.mode = .readyToWrite) {fd : ℕ}
    {m : SegMem M} (hprep : segstatePrepareOutput host S fd R.codec_mem = .ok m) :
    Receiver.Inv { R with
      out_fd := fd, SS := R.SS.put R.SS.min_file_nbr m.S, codec_mem := m.codec_mem } := by
  have hin := R.SS.inWindow_min
  have hg := h.gathers_of_closed hfd hS
  obtain ⟨file_len, kept, hr⟩ := hg.receives
  obtain ⟨C, exit, m', S', -, -, -, -, hprep', hw, hfd', -⟩ :=
    hr.prepareOutput hg.out_fd_eq host fd R.codec_mem
  obtain rfl : _ = m := Except.ok.inj (hprep'.symm.trans hprep)
  have hne : R.SS.min_file_nbr < R.recv_file_nbr := h.older _ S hS (by simp [hmode])
  have hlook : ∀ g T, g ≠ R.SS.min_file_nbr →
      ((R.SS.put R.SS.min_file_nbr S').lookup g = some T ↔ R.SS.lookup g = some T) := by
    intro g T hg
    rw [lookup_put_of_ne hin S' hg]
  refine ⟨h.placed.put hin hw.file_nbr_eq, h.min_nonneg, ?_, ?_, ?_, ?_, fun _ => hok,
    h.started_of_ok, ?_, ?_⟩
  · intro g T hT
    by_cases hgm : g = R.SS.min_file_nbr
    · subst hgm
      obtain rfl := Option.some.inj ((lookup_put_self hin S').symm.trans hT)
      have hopen : (fd : ℤ) ≠ -1 := by omega
      exact .inr ⟨rfl, hfd', hopen, file_len, 0, hw⟩
    · exact .inl (h.gathers_of_closed hfd ((hlook g T hgm).mp hT))
  · intro g T hT hm
    by_cases hgm : g = R.SS.min_file_nbr
    · rw [hgm]
      exact hne
    · exact h.older g T ((hlook g T hgm).mp hT) hm
  · intro g T hT
    by_cases hgm : g = R.SS.min_file_nbr
    · rw [hgm]
      exact Int.le_of_lt hne
    · exact h.le_recv g T ((hlook g T hgm).mp hT)
  · exact fun _ => ⟨S', lookup_put_self hin S', hw.mode_eq⟩
  · intro hst
    obtain ⟨hwin, T, hT, hm⟩ := h.newest hst
    exact ⟨hwin, T, (hlook _ T (Int.ne_of_gt hne)).mpr hT, hm⟩
  · intro hst
    rw [(h.unstarted hst).2] at hS
    cases hS

/-- The window moves on when a segment has been written. -/
theorem retire (h : R.Inv) {S : Segstate} (hS : R.SS.lookup R.SS.min_file_nbr = some S)
    (hmode : S.mode = .writing) {m : SegMem M} (hnbr : m.S.file_nbr = R.SS.min_file_nbr) :
    (R.retire m).Inv := by
  have hin := R.SS.inWindow_min
  have hne : R.SS.min_file_nbr < R.recv_file_nbr := h.older _ S hS (by simp [hmode])
  have hlook : ∀ g T, (R.retire m).SS.lookup g = some T ↔
      g ≠ R.SS.min_file_nbr ∧ R.SS.lookup g = some T := by
    intro g T
    unfold Receiver.retire
    rw [lookup_incMinFileNbr, min_put]
    split
    · rename_i hgm
      simp [hgm]
    · rename_i hgm
      rw [lookup_put_of_ne hin _ hgm]
      simp [hgm]
  refine ⟨(h.placed.put (S := segstateFree m.S) hin hnbr).incMinFileNbr, ?_, ?_, ?_, ?_,
    fun hfd => absurd rfl hfd, fun hfd => absurd rfl hfd, h.started_of_ok, ?_, ?_⟩
  · have hmin := h.min_nonneg
    change 0 ≤ R.SS.min_file_nbr + 1
    omega
  · intro g T hT
    obtain ⟨hgm, hT⟩ := (hlook g T).mp hT
    exact .inl ((h.segs g T hT).resolve_right fun hd => hgm hd.1)
  · intro g T hT
    exact h.older g T ((hlook g T).mp hT).2
  · intro g T hT
    exact h.le_recv g T ((hlook g T).mp hT).2
  · intro hst
    obtain ⟨hwin, T, hT, hm⟩ := h.newest hst
    refine ⟨?_, T, (hlook _ T).mpr ⟨Int.ne_of_gt hne, hT⟩, hm⟩
    rw [inWindow_iff] at hwin ⊢
    change R.SS.min_file_nbr + 1 ≤ _ ∧ _ < R.SS.min_file_nbr + 1 + 4
    simp only [Receiver.retire]
    omega
  · intro hst
    rw [(h.unstarted hst).2] at hS
    cases hS

/-- The first timeout. -/
theorem permit (h : R.Inv) (hst : R.started = true) :
    Receiver.Inv { R with write_ok := true } :=
  { h with
    permitted := fun _ => rfl
    started_of_ok := fun _ => hst }

theorem signalReady (h : R.Inv) : Receiver.Inv { R with ready_fd := -1 } := { h with }

/-! ## Every pass -/

variable {R' : Receiver M} {es : List Event}

theorem starts (h : R.Inv) (hok : R.write_ok = true) (hfd : R.out_fd = -1) {opened : Option ℕ}
    (hs : R.Starts host opened es R') : R'.Inv := by
  cases hs with
  | idle | refused => exact h
  | opens hS hmode _ hprep => exact h.startWrite hok hfd hS hmode hprep

theorem writes (h : R.Inv) (hfd : R.out_fd ≠ -1) {taken opened : Option ℕ}
    (hw : R.Writes host taken opened es R') : R'.Inv := by
  obtain ⟨S, hS, hd⟩ := h.drains hfd
  obtain ⟨file_len, offs, hwr⟩ := hd.writes
  obtain ⟨w, hwrite, -, hnbr, hfd', hmore⟩ :=
    hwr.writeMore (by rw [hd.out_fd_eq]; exact hfd) host R.codec_mem taken
  cases hw with
  | more hS' hwrite' hm =>
      obtain rfl := Option.some.inj (hS.symm.trans hS')
      obtain rfl := Except.ok.inj (hwrite.symm.trans hwrite')
      obtain ⟨offs', hwr'⟩ := hmore hm
      exact h.put hS (hwr'.mode_eq.trans hwr.mode_eq.symm)
        (.inr ⟨rfl, hfd'.trans hd.out_fd_eq, hfd, file_len, offs', hwr'⟩) _
  | last hS' hwrite' _ hstart =>
      obtain rfl := Option.some.inj (hS.symm.trans hS')
      obtain rfl := Except.ok.inj (hwrite.symm.trans hwrite')
      exact (h.retire hS hwr.mode_eq hnbr).starts (h.permitted hfd) rfl hstart

theorem gets (h : R.Inv) {d : Datagram} {opened : Option ℕ}
    (hg : R.Gets host d opened es R') : R'.Inv := by
  cases hg with
  | outside => exact h
  | known hS hadd => exact h.addPacket hS hadd
  | first hin hnone hsmall _ hadd =>
      have hself := lookup_enter host hin d.header.tos.toNat d.header.toi.toNat
      rw [if_pos rfl] at hself
      exact (h.enter host hin (by omega) hnone hsmall).addPacket hself hadd
  | newest hin hnone hsmall _ hok hfd hstart hadd =>
      have hself := lookup_enter host hin d.header.tos.toNat d.header.toi.toNat
      rw [if_pos rfl] at hself
      have hR₁ := (h.enter host hin (by omega) hnone hsmall).starts ((write_ok_enter ..).trans hok)
        ((out_fd_enter ..).trans hfd) hstart
      exact hR₁.addPacket (hstart.lookup_receiving hself rfl).1 hadd

/-- One pass keeps the invariant. -/
theorem step {L : SegmentList} {i : Input} (h : R.Inv) (hs : R.Step L host i R' es) : R'.Inv := by
  obtain ⟨hmay, -, hpass⟩ := step_iff.mp hs
  cases hpass with
  | recv _ _ hgets => exact h.gets hgets
  | write htask hwrites => exact h.writes (nexttask_write htask) hwrites
  | startWrite htask hstarts =>
      obtain ⟨hfd, hst, -⟩ := nexttask_startWrite hmay htask
      exact (h.permit hst).starts rfl hfd hstarts
  | signalReady => exact h.signalReady

end Receiver.Inv

/-- The invariant holds in every state that the loop reaches. -/
theorem inv_of_run {L : SegmentList} {host : Host M} {ready_fd : ℤ} {R : Receiver M}
    {t : List (Entry (Receiver M) Input Event)}
    (h : Run (Receiver.Step L host) (Receiver.init host ready_fd) t R) : R.Inv :=
  h.invariant (inv_init host ready_fd) fun _ _ _ _ hinv hstep => hinv.step hstep

end RqRoute
