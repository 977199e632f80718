import RqRoute.Model.Receiver
import RqRoute.Verification.Segstate.Receive
import RqRoute.Verification.Segstateset.Window

/-! # One pass of the receive loop

Each way a pass can go, in terms of the segments of the window: what it needs, the state
it leads to, and its events. -/

namespace RqRoute

open Checked Segstateset

variable {M : Type}

/-! ## Starting to write -/

theorem taskStartWrite_none {host : Host M} {SS : Segstateset} {codec_mem : RqMemBlocks M}
    {opened : Option ℕ} (h : SS.lookup SS.min_file_nbr = none) :
    taskStartWrite host SS codec_mem opened =
      .ok { out_fd := -1, SS, codec_mem, events := [] } := by
  simp [taskStartWrite, segstatesetGetMinFileNbr, get_of_lookup_none SS.inWindow_min h]

theorem taskStartWrite_some {host : Host M} {SS : Segstateset} {codec_mem : RqMemBlocks M}
    {opened : Option ℕ} {S : Segstate} (h : SS.lookup SS.min_file_nbr = some S) :
    taskStartWrite host SS codec_mem opened =
      if S.mode ≠ .readyToWrite then .ok { out_fd := -1, SS, codec_mem, events := [] }
      else match opened with
        | none => .ok { out_fd := -1, SS, codec_mem, events := [.lookedUp SS.min_file_nbr] }
        | some fd => do
          let m ← segstatePrepareOutput host S fd codec_mem
          return {
            out_fd := fd
            SS := SS.put SS.min_file_nbr m.S
            codec_mem := m.codec_mem
            events := [.lookedUp SS.min_file_nbr, .opened SS.min_file_nbr fd] } := by
  simp only [taskStartWrite, segstatesetGetMinFileNbr, get_of_lookup_some h, orElse_some, ok_bind,
    segstateGetMode, states_of_lookup h, setSlot_eq_put h]
  rw [if_neg (by decide)]
  split
  · rfl
  · cases opened <;> rfl

/-- What `task_start_write` makes of a receiver without an open descriptor. -/
inductive Receiver.Starts (host : Host M) (R : Receiver M) (opened : Option ℕ) :
    List Event → Receiver M → Prop
  /-- the next segment is not there, or not ready -/
  | idle (hnot : ∀ S, R.SS.lookup R.SS.min_file_nbr = some S → S.mode ≠ .readyToWrite) :
      Starts host R opened [] R
  /-- its file cannot be opened -/
  | refused {S : Segstate} (hS : R.SS.lookup R.SS.min_file_nbr = some S)
      (hmode : S.mode = .readyToWrite) (hopen : opened = none) :
      Starts host R opened [.lookedUp R.SS.min_file_nbr] R
  | opens {S : Segstate} {fd : ℕ} {m : SegMem M}
      (hS : R.SS.lookup R.SS.min_file_nbr = some S) (hmode : S.mode = .readyToWrite)
      (hopen : opened = some fd)
      (hprep : segstatePrepareOutput host S fd R.codec_mem = .ok m) :
      Starts host R opened [.lookedUp R.SS.min_file_nbr, .opened R.SS.min_file_nbr fd]
        { R with
          out_fd := fd, SS := R.SS.put R.SS.min_file_nbr m.S, codec_mem := m.codec_mem }

theorem starts_iff {host : Host M} {R R' : Receiver M} {opened : Option ℕ} {es : List Event}
    (hfd : R.out_fd = -1) :
    (∃ r, taskStartWrite host R.SS R.codec_mem opened = .ok r ∧ R.after r = R' ∧ r.events = es) ↔
      R.Starts host opened es R' := by
  have hself : ∀ es, R.after { out_fd := -1, SS := R.SS, codec_mem := R.codec_mem, events := es } =
      R := by
    intro es
    rw [← hfd]
    rfl
  cases hS : R.SS.lookup R.SS.min_file_nbr with
  | none =>
      rw [taskStartWrite_none hS]
      constructor
      · rintro ⟨r, hr, rfl, rfl⟩
        cases hr
        rw [hself]
        exact .idle (by simp [hS])
      · intro h
        cases h with
        | idle => exact ⟨_, rfl, hself _, rfl⟩
        | refused hS' | opens hS' => cases hS.symm.trans hS'
  | some S =>
      rw [taskStartWrite_some hS]
      by_cases hmode : S.mode = .readyToWrite
      · rw [if_neg (by simpa using hmode)]
        constructor
        · rintro ⟨r, hr, rfl, rfl⟩
          cases opened with
          | none =>
              cases hr
              rw [hself]
              exact .refused hS hmode rfl
          | some fd =>
              obtain ⟨m, hprep, hr⟩ := bind_eq_ok.mp hr
              cases hr
              exact .opens hS hmode rfl hprep
        · intro h
          cases h with
          | idle hnot => exact absurd hmode (hnot S hS)
          | refused _ _ hopen =>
              rw [hopen]
              exact ⟨_, rfl, hself _, rfl⟩
          | opens hS' _ hopen hprep =>
              obtain rfl := Option.some.inj (hS.symm.trans hS')
              rw [hopen]
              simp only [hprep, ok_bind, pure_eq_ok]
              exact ⟨_, rfl, rfl, rfl⟩
      · rw [if_pos hmode]
        constructor
        · rintro ⟨r, hr, rfl, rfl⟩
          cases hr
          rw [hself]
          refine .idle fun S' hS' => ?_
          obtain rfl := Option.some.inj (hS.symm.trans hS')
          exact hmode
        · intro h
          cases h with
          | idle => exact ⟨_, rfl, hself _, rfl⟩
          | refused hS' hready | opens hS' hready =>
              obtain rfl := Option.some.inj (hS.symm.trans hS')
              exact absurd hready hmode

/-! ## Writing -/

/-- The receiver after the last write of its segment. -/
def Receiver.retire (R : Receiver M) (m : SegMem M) : Receiver M :=
  { R with
    out_fd := -1
    SS := segstatesetIncMinFileNbr (R.SS.put R.SS.min_file_nbr (segstateFree m.S))
    codec_mem := m.codec_mem }

theorem taskWrite_none {host : Host M} {SS : Segstateset} {out_fd : ℤ}
    {codec_mem : RqMemBlocks M} {taken opened : Option ℕ}
    (h : SS.lookup SS.min_file_nbr = none) :
    taskWrite host SS out_fd codec_mem taken opened = .error .taskWriteStatus := by
  simp [taskWrite, segstatesetGetMinFileNbr, get_of_lookup_none SS.inWindow_min h, check]

theorem taskWrite_some {host : Host M} {SS : Segstateset} {out_fd : ℤ}
    {codec_mem : RqMemBlocks M} {taken opened : Option ℕ} {S : Segstate}
    (h : SS.lookup SS.min_file_nbr = some S) :
    taskWrite host SS out_fd codec_mem taken opened =
      segstateWriteMore host { S, codec_mem } taken >>= fun w =>
        if w.more then .ok {
          out_fd
          SS := SS.put SS.min_file_nbr w.mem.S
          codec_mem := w.mem.codec_mem
          events := [.wrote SS.min_file_nbr w.written] }
        else do
          let r ← taskStartWrite host
            (segstatesetIncMinFileNbr (SS.put SS.min_file_nbr (segstateFree w.mem.S)))
            w.mem.codec_mem opened
          return { r with events :=
            [.wrote SS.min_file_nbr w.written, .retired SS.min_file_nbr] ++ r.events } := by
  simp only [taskWrite, segstatesetGetMinFileNbr, get_of_lookup_some h, orElse_some, ok_bind,
    states_of_lookup h, setSlot_eq_put h]
  rfl

/-- A write step: the segment goes on, or it is retired and the next one started. -/
inductive Receiver.Writes (host : Host M) (R : Receiver M) (taken opened : Option ℕ) :
    List Event → Receiver M → Prop
  | more {S : Segstate} {w : WriteMore M} (hS : R.SS.lookup R.SS.min_file_nbr = some S)
      (hwrite : segstateWriteMore host { S, codec_mem := R.codec_mem } taken = .ok w)
      (hmore : w.more = true) :
      Writes host R taken opened [.wrote R.SS.min_file_nbr w.written]
        { R with
          SS := R.SS.put R.SS.min_file_nbr w.mem.S, codec_mem := w.mem.codec_mem }
  | last {S : Segstate} {w : WriteMore M} {es : List Event} {R' : Receiver M}
      (hS : R.SS.lookup R.SS.min_file_nbr = some S)
      (hwrite : segstateWriteMore host { S, codec_mem := R.codec_mem } taken = .ok w)
      (hmore : w.more = false) (hstart : (R.retire w.mem).Starts host opened es R') :
      Writes host R taken opened
        ([.wrote R.SS.min_file_nbr w.written, .retired R.SS.min_file_nbr] ++ es) R'

theorem writes_iff {host : Host M} {R R' : Receiver M} {taken opened : Option ℕ}
    {es : List Event} :
    (∃ r, taskWrite host R.SS R.out_fd R.codec_mem taken opened = .ok r ∧
      R.after r = R' ∧ r.events = es) ↔ R.Writes host taken opened es R' := by
  cases hS : R.SS.lookup R.SS.min_file_nbr with
  | none =>
      rw [taskWrite_none hS]
      constructor
      · rintro ⟨r, hr, -⟩
        cases hr
      · intro h
        cases h with
        | more hS' | last hS' => cases hS.symm.trans hS'
  | some S =>
      rw [taskWrite_some hS]
      constructor
      · rintro ⟨r, hr, rfl, rfl⟩
        obtain ⟨w, hwrite, hr⟩ := bind_eq_ok.mp hr
        by_cases hmore : w.more = true
        · rw [if_pos hmore] at hr
          cases hr
          exact .more hS hwrite hmore
        · rw [if_neg hmore] at hr
          obtain ⟨r', hr', hr⟩ := bind_eq_ok.mp hr
          cases hr
          exact .last hS hwrite (by simpa using hmore)
            ((starts_iff rfl).mp ⟨r', hr', rfl, rfl⟩)
      · intro h
        cases h with
        | more hS' hwrite hmore =>
            obtain rfl := Option.some.inj (hS.symm.trans hS')
            rw [hwrite, ok_bind, if_pos hmore]
            exact ⟨_, rfl, rfl, rfl⟩
        | last hS' hwrite hmore hstart =>
            obtain rfl := Option.some.inj (hS.symm.trans hS')
            obtain ⟨r, hr, rfl, rfl⟩ := (starts_iff rfl).mpr hstart
            rw [hwrite, ok_bind, if_neg (by simp [hmore])]
            exact ⟨_, bind_eq_ok.mpr ⟨r, hr, rfl⟩, rfl, rfl⟩

/-! ## Receiving -/

/-- The receiver after the first packet of segment `f`, before the packet is added. -/
def Receiver.enter (host : Host M) (R : Receiver M) (f : ℤ) (file_len : ℕ) : Receiver M :=
  let SS := R.SS.put f (initialSegment host f file_len)
  if f > R.recv_file_nbr then
    { R with started := true, recv_file_nbr := f, SS := segstatesetMarkReadytowrite SS f }
  else { R with started := true, SS }

/-- A packet reaches a segment of the window. -/
inductive Receiver.Gets (host : Host M) (R : Receiver M) (d : Datagram) (opened : Option ℕ) :
    List Event → Receiver M → Prop
  | outside (hout : ¬R.SS.InWindow d.header.toi.toNat) : Gets host R d opened [] R
  | known {S S' : Segstate} (hS : R.SS.lookup d.header.toi.toNat = some S)
      (hadd : segstateAddPacket S d.header d.payload = .ok S') :
      Gets host R d opened [.accepted d.header.toi.toNat d]
        { R with SS := R.SS.put d.header.toi.toNat S' }
  /-- the first packet of the segment; nothing is started -/
  | first {S' : Segstate} (hin : R.SS.InWindow d.header.toi.toNat)
      (hnone : R.SS.lookup d.header.toi.toNat = none) (hsmall : SmallFile d.header.tos.toNat)
      (hquiet : ¬((d.header.toi.toNat : ℤ) > R.recv_file_nbr ∧ R.write_ok ∧ R.out_fd = -1))
      (hadd : segstateAddPacket (initialSegment host d.header.toi.toNat d.header.tos.toNat)
        d.header d.payload = .ok S') :
      Gets host R d opened [.accepted d.header.toi.toNat d]
        { R.enter host d.header.toi.toNat d.header.tos.toNat with
          SS := (R.enter host d.header.toi.toNat d.header.tos.toNat).SS.put
            d.header.toi.toNat S' }
  /-- the first packet of the newest segment lets an older one be written -/
  | newest {S' : Segstate} {es : List Event} {R₁ : Receiver M}
      (hin : R.SS.InWindow d.header.toi.toNat)
      (hnone : R.SS.lookup d.header.toi.toNat = none) (hsmall : SmallFile d.header.tos.toNat)
      (hnew : (d.header.toi.toNat : ℤ) > R.recv_file_nbr) (hok : R.write_ok = true)
      (hfd : R.out_fd = -1)
      (hstart : (R.enter host d.header.toi.toNat d.header.tos.toNat).Starts host opened es R₁)
      (hadd : segstateAddPacket (initialSegment host d.header.toi.toNat d.header.tos.toNat)
        d.header d.payload = .ok S') :
      Gets host R d opened (es ++ [.accepted d.header.toi.toNat d])
        { R₁ with SS := R₁.SS.put d.header.toi.toNat S' }

@[simp] theorem slotIndex_enter (host : Host M) (R : Receiver M) (f g : ℤ) (file_len : ℕ) :
    slotIndex (R.enter host f file_len).SS g = slotIndex R.SS g := by
  unfold Receiver.enter
  split <;> rfl

@[simp] theorem min_enter (host : Host M) (R : Receiver M) (f : ℤ) (file_len : ℕ) :
    (R.enter host f file_len).SS.min_file_nbr = R.SS.min_file_nbr := by
  unfold Receiver.enter
  split <;> rfl

@[simp] theorem inWindow_enter (host : Host M) (R : Receiver M) (f g : ℤ) (file_len : ℕ) :
    (R.enter host f file_len).SS.InWindow g ↔ R.SS.InWindow g := by
  rw [inWindow_iff, inWindow_iff, min_enter]

@[simp] theorem out_fd_enter (host : Host M) (R : Receiver M) (f : ℤ) (file_len : ℕ) :
    (R.enter host f file_len).out_fd = R.out_fd := by
  unfold Receiver.enter
  split <;> rfl

@[simp] theorem codec_mem_enter (host : Host M) (R : Receiver M) (f : ℤ) (file_len : ℕ) :
    (R.enter host f file_len).codec_mem = R.codec_mem := by
  unfold Receiver.enter
  split <;> rfl

@[simp] theorem write_ok_enter (host : Host M) (R : Receiver M) (f : ℤ) (file_len : ℕ) :
    (R.enter host f file_len).write_ok = R.write_ok := by
  unfold Receiver.enter
  split <;> rfl

@[simp] theorem started_enter (host : Host M) (R : Receiver M) (f : ℤ) (file_len : ℕ) :
    (R.enter host f file_len).started = true := by
  unfold Receiver.enter
  split <;> rfl

@[simp] theorem recv_enter (host : Host M) (R : Receiver M) (f : ℤ) (file_len : ℕ) :
    (R.enter host f file_len).recv_file_nbr = max R.recv_file_nbr f := by
  unfold Receiver.enter
  split <;> simp only <;> omega

/-- The new segment is there, and when it is the newest, those below it are ready. -/
theorem lookup_enter (host : Host M) {R : Receiver M} {f : ℤ} (hin : R.SS.InWindow f)
    (file_len : ℕ) (g : ℤ) :
    (R.enter host f file_len).SS.lookup g =
      if g = f then some (initialSegment host f file_len)
      else if f > R.recv_file_nbr then (R.SS.lookup g).map (markReady f) else R.SS.lookup g := by
  have hself : markReady f (initialSegment host f file_len) = initialSegment host f file_len :=
    if_neg fun h => Int.lt_irrefl _ h.2
  unfold Receiver.enter
  by_cases hnew : f > R.recv_file_nbr
  · simp only [if_pos hnew, lookup_markReadytowrite, lookup_put hin]
    split
    · rw [Option.map_some, hself]
    · rfl
  · simp only [if_neg hnew, lookup_put hin]

theorem addToSegment_eq {R : Receiver M} {d : Datagram} {S : Segstate}
    (h : R.SS.lookup d.header.toi.toNat = some S) :
    addToSegment R (slotIndex R.SS d.header.toi.toNat) d =
      segstateAddPacket S d.header d.payload >>= fun S' =>
        .ok ({ R with SS := R.SS.put d.header.toi.toNat S' },
          [.accepted d.header.toi.toNat d]) := by
  simp only [addToSegment, states_of_lookup h, setSlot_eq_put h]
  rfl

theorem initSegment_eq {host : Host M} {R : Receiver M} {header : RouteHeader}
    {opened : Option ℕ} (hin : R.SS.InWindow header.toi.toNat)
    (hnone : R.SS.lookup header.toi.toNat = none) (hsmall : SmallFile header.tos.toNat) :
    initSegment host R (slotIndex R.SS header.toi.toNat) header opened =
      if (header.toi.toNat : ℤ) > R.recv_file_nbr ∧ R.write_ok ∧ R.out_fd = -1 then do
        let R' := R.enter host header.toi.toNat header.tos.toNat
        let r ← taskStartWrite host R'.SS R'.codec_mem opened
        return (R'.after r, r.events)
      else .ok (R.enter host header.toi.toNat header.tos.toNat, []) := by
  have hinit : segstateInit host header.toi.toNat header.tos.toNat = .ok _ :=
    (segstateInit_eq_ok_iff header.tos.toNat_lt).mpr ⟨hsmall, rfl⟩
  rw [initSegment, hinit]
  simp only [ok_bind, markInitialized_setSlot hin hnone]
  by_cases hnew : (header.toi.toNat : ℤ) > R.recv_file_nbr
  · by_cases hstart : R.write_ok = true ∧ R.out_fd = -1
    · simp [hnew, hstart, Receiver.enter]
    · simp [hnew, hstart, Receiver.enter]
  · simp [hnew, Receiver.enter]

/-- A new segment of another length is the end of the program. -/
theorem initSegment_error (host : Host M) (R : Receiver M) (idx : Fin segstateSetN)
    {header : RouteHeader} (opened : Option ℕ) (hsmall : ¬SmallFile header.tos.toNat) :
    ∃ e, paramDeriv (toInt header.tos.toNat) = .error e ∧
      initSegment host R idx header opened = .error e := by
  cases hP : paramDeriv (toInt header.tos.toNat) with
  | ok P =>
      obtain ⟨S, hS⟩ : ∃ S, segstateInit host header.toi.toNat header.tos.toNat = .ok S :=
        ⟨_, by rw [segstateInit, hP, ok_bind, pure_eq_ok]⟩
      exact absurd ((segstateInit_eq_ok_iff header.tos.toNat_lt).mp hS).1 hsmall
  | error e => exact ⟨e, rfl, by rw [initSegment, segstateInit, hP]; rfl⟩

/-- The segment of the packet is still there once an older one has been started. -/
theorem Receiver.Starts.lookup_receiving {host : Host M} {R R' : Receiver M}
    {opened : Option ℕ} {es : List Event} (h : R.Starts host opened es R') {f : ℤ} {S : Segstate}
    (hS : R.SS.lookup f = some S) (hmode : S.mode = .receiving) :
    R'.SS.lookup f = some S ∧ slotIndex R'.SS f = slotIndex R.SS f := by
  cases h with
  | idle | refused => exact ⟨hS, rfl⟩
  | opens hmin hready =>
      refine ⟨?_, rfl⟩
      have hne : f ≠ R.SS.min_file_nbr := by
        rintro rfl
        obtain rfl := Option.some.inj (hS.symm.trans hmin)
        rw [hmode] at hready
        cases hready
      rw [lookup_put_of_ne R.SS.inWindow_min _ hne, hS]

/-- Starting leaves what belongs to the receiving side alone. -/
theorem Receiver.Starts.frame {host : Host M} {R R' : Receiver M} {opened : Option ℕ}
    {es : List Event} (h : R.Starts host opened es R') :
    R'.SS.min_file_nbr = R.SS.min_file_nbr ∧ R'.recv_file_nbr = R.recv_file_nbr ∧
      R'.started = R.started ∧ R'.write_ok = R.write_ok := by
  cases h <;> exact ⟨rfl, rfl, rfl, rfl⟩

/-! ## A packet is received -/

theorem receivePacket_outside {host : Host M} {R : Receiver M} {d : Datagram}
    {opened : Option ℕ} (h : ¬R.SS.InWindow d.header.toi.toNat) :
    receivePacket host R d opened = .ok (R, []) := by
  rw [inWindow_iff] at h
  by_cases hlow : (d.header.toi.toNat : ℤ) < R.SS.min_file_nbr
  · simp only [receivePacket, get_of_lt hlow, pure_eq_ok]
  · have hhigh : R.SS.min_file_nbr + segstateSetN ≤ (d.header.toi.toNat : ℤ) := by
      change _ + 4 ≤ _
      omega
    simp only [receivePacket, get_of_ge hhigh, pure_eq_ok]

theorem receivePacket_known {host : Host M} {R : Receiver M} {d : Datagram}
    {opened : Option ℕ} {S : Segstate} (h : R.SS.lookup d.header.toi.toNat = some S) :
    receivePacket host R d opened =
      segstateAddPacket S d.header d.payload >>= fun S' =>
        .ok ({ R with SS := R.SS.put d.header.toi.toNat S' },
          [.accepted d.header.toi.toNat d]) := by
  rw [← addToSegment_eq h]
  simp only [receivePacket, get_of_lookup_some h, orElse_some, ok_bind]

theorem receivePacket_unknown {host : Host M} {R : Receiver M} {d : Datagram}
    {opened : Option ℕ} (hin : R.SS.InWindow d.header.toi.toNat)
    (h : R.SS.lookup d.header.toi.toNat = none) :
    receivePacket host R d opened =
      (do
        let x ← initSegment host R (slotIndex R.SS d.header.toi.toNat) d.header opened
        let y ← addToSegment x.1 (slotIndex R.SS d.header.toi.toNat) d
        return (y.1, x.2 ++ y.2)) := by
  unfold receivePacket
  rw [get_of_lookup_none hin h]
  dsimp only
  rw [orElse_some, ok_bind]

theorem receivePacket_unknown_iff {host : Host M} {R R' : Receiver M} {d : Datagram}
    {opened : Option ℕ} {es : List Event} (hin : R.SS.InWindow d.header.toi.toNat)
    (hnone : R.SS.lookup d.header.toi.toNat = none) :
    receivePacket host R d opened = .ok (R', es) ↔ R.Gets host d opened es R' := by
  rw [receivePacket_unknown hin hnone]
  by_cases hsmall : SmallFile d.header.tos.toNat
  · have hself : (R.enter host d.header.toi.toNat d.header.tos.toNat).SS.lookup
        d.header.toi.toNat =
          some (initialSegment host d.header.toi.toNat d.header.tos.toNat) := by
      rw [lookup_enter host hin, if_pos rfl]
    rw [initSegment_eq hin hnone hsmall]
    by_cases hgo : (d.header.toi.toNat : ℤ) > R.recv_file_nbr ∧ R.write_ok ∧ R.out_fd = -1
    · have hfd : (R.enter host d.header.toi.toNat d.header.tos.toNat).out_fd = -1 := by
        rw [← hgo.2.2]
        unfold Receiver.enter
        split <;> rfl
      rw [if_pos hgo]
      constructor
      · intro h
        simp only [bind_eq_ok] at h
        obtain ⟨x, ⟨r, hr, hx⟩, ⟨y, hy, h⟩⟩ := h
        cases hx
        have hstart := (starts_iff hfd).mp ⟨r, hr, rfl, rfl⟩
        obtain ⟨hlook, hslot⟩ := hstart.lookup_receiving hself rfl
        rw [slotIndex_enter] at hslot
        rw [← hslot, addToSegment_eq hlook] at hy
        obtain ⟨S', hS', hy⟩ := bind_eq_ok.mp hy
        cases hy
        cases h
        exact .newest hin hnone hsmall hgo.1 hgo.2.1 hgo.2.2 hstart hS'
      · intro h
        cases h with
        | outside hout => exact absurd hin hout
        | known hS' => cases hnone.symm.trans hS'
        | first _ _ _ hquiet => exact absurd hgo hquiet
        | newest _ _ _ _ _ _ hstart hS' =>
            obtain ⟨hlook, hslot⟩ := hstart.lookup_receiving hself rfl
            rw [slotIndex_enter] at hslot
            obtain ⟨r, hr, rfl, rfl⟩ := (starts_iff hfd).mpr hstart
            simp only [hr, ok_bind, pure_eq_ok]
            rw [← hslot, addToSegment_eq hlook, hS']
            rfl
    · rw [if_neg hgo, ok_bind, ← slotIndex_enter host R _ d.header.toi.toNat d.header.tos.toNat,
        addToSegment_eq hself]
      constructor
      · intro h
        simp only [bind_eq_ok] at h
        obtain ⟨y, ⟨S', hS', hy⟩, h⟩ := h
        cases hy
        cases h
        exact .first hin hnone hsmall hgo hS'
      · intro h
        cases h with
        | outside hout => exact absurd hin hout
        | known hS' => cases hnone.symm.trans hS'
        | first _ _ _ _ hS' =>
            rw [hS']
            rfl
        | newest _ _ _ hnew hok hfd => exact absurd ⟨hnew, hok, hfd⟩ hgo
  · obtain ⟨e, -, he⟩ := initSegment_error host R
      (slotIndex R.SS d.header.toi.toNat) opened hsmall
    rw [he]
    constructor
    · intro h
      cases h
    · intro h
      cases h with
      | outside hout => exact absurd hin hout
      | known hS' => cases hnone.symm.trans hS'
      | first _ _ hsmall' | newest _ _ hsmall' => exact absurd hsmall' hsmall

theorem gets_iff {host : Host M} {R R' : Receiver M} {d : Datagram} {opened : Option ℕ}
    {es : List Event} :
    receivePacket host R d opened = .ok (R', es) ↔ R.Gets host d opened es R' := by
  by_cases hin : R.SS.InWindow d.header.toi.toNat
  · cases hS : R.SS.lookup d.header.toi.toNat with
    | some S =>
        rw [receivePacket_known hS, bind_eq_ok]
        constructor
        · rintro ⟨S', hadd, h⟩
          cases h
          exact .known hS hadd
        · intro h
          cases h with
          | outside hout => exact absurd hin hout
          | known hS' hadd =>
              obtain rfl := Option.some.inj (hS.symm.trans hS')
              exact ⟨_, hadd, rfl⟩
          | first _ hnone | newest _ hnone => cases hS.symm.trans hnone
    | none => exact receivePacket_unknown_iff hin hS
  · rw [receivePacket_outside hin]
    constructor
    · intro h
      cases h
      exact .outside hin
    · intro h
      cases h with
      | outside => rfl
      | known hS => exact absurd (lookup_inWindow hS) hin
      | first hin' | newest hin' => exact absurd hin' hin

/-! ## Choosing what to do -/

/-- What `pselect` may report always leads to a decision. -/
theorem nexttask_ok {R : Receiver M} {p : Pselect} (h : R.MayReport p) :
    ∃ task, nexttask R p = .ok task := by
  unfold nexttask
  rcases h with hneg | ⟨hrv, hwfd, hzero⟩
  · exact ⟨none, if_pos hneg⟩
  · have hrsock := Bool.toNat_le p.rsock
    have hwfd' := Bool.toNat_le p.wfd
    rw [if_neg (by omega)]
    by_cases hfd : R.out_fd = -1
    · rw [if_pos hfd]
      split
      · split
        · exact ⟨_, rfl⟩
        · rename_i hpos hready
          have hsock : p.rsock = true := by
            by_contra hno
            have hw : p.wfd = true := by
              by_contra hw
              simp only [Bool.not_eq_true] at hno hw
              simp [hno, hw] at hrv
              omega
            rcases hwfd hw with hopen | ⟨-, hgt⟩
            · exact hopen hfd
            · exact hready ⟨by omega, hw⟩
          exact ⟨some .recv, by rw [check_bind hsock]; rfl⟩
      · exact ⟨_, rfl⟩
    · rw [if_neg hfd]
      have hpos : p.rv ≠ 0 := fun h0 => hfd (hzero h0).1
      rw [check_bind (by omega)]
      exact ⟨_, rfl⟩

theorem nexttask_write {R : Receiver M} {p : Pselect}
    (h : nexttask R p = .ok (some .write)) : R.out_fd ≠ -1 := by
  intro hfd
  unfold nexttask at h
  split at h
  · cases h
  · split at h
    · split at h
      · cases h
      · obtain ⟨_, _, h⟩ := bind_eq_ok.mp h
        cases h
    · cases h

/-- A segment is started by the timeout only while there is one. -/
theorem nexttask_startWrite {R : Receiver M} {p : Pselect} (hmay : R.MayReport p)
    (h : nexttask R p = .ok (some .startWrite)) : R.HasTimeout := by
  unfold nexttask at h
  split at h
  · cases h
  · rename_i hrv
    rcases hmay with hneg | ⟨hsum, -, hzero⟩
    · exact absurd hneg hrv
    · split at h
      · split at h
        · split at h
          · cases h
          · obtain ⟨_, _, h⟩ := bind_eq_ok.mp h
            cases h
        · exact hzero (by omega)
      · obtain ⟨_, _, h⟩ := bind_eq_ok.mp h
        cases hs : p.rsock <;> simp [hs] at h

theorem nexttask_signalReady {R : Receiver M} {p : Pselect} (hmay : R.MayReport p)
    (h : nexttask R p = .ok (some .signalReady)) : R.out_fd = -1 ∧ 0 < R.ready_fd := by
  unfold nexttask at h
  split at h
  · cases h
  · rename_i hrv
    rcases hmay with hneg | ⟨-, hwfd, -⟩
    · exact absurd hneg hrv
    · split at h
      · rename_i hfd
        split at h
        · split at h
          · rename_i hready
            rcases hwfd hready.2 with hopen | hgt
            · exact absurd hfd hopen
            · exact ⟨hfd, hgt.2⟩
          · obtain ⟨_, _, h⟩ := bind_eq_ok.mp h
            cases h
        · cases h
      · obtain ⟨_, _, h⟩ := bind_eq_ok.mp h
        cases hs : p.rsock <;> simp [hs] at h

/-! ## The whole pass -/

/-- The ways through the body of the loop that lead back to its top. -/
inductive Receiver.Passes (host : Host M) (R : Receiver M) (i : Input) :
    List Event → Receiver M → Prop
  | recv {d : Datagram} {es : List Event} {R' : Receiver M}
      (htask : nexttask R i.sel = .ok (some .recv)) (hpkt : i.recv = .packet d)
      (hgets : R.Gets host (cutDatagram d) i.opened es R') : Passes host R i es R'
  | write {es : List Event} {R' : Receiver M} (htask : nexttask R i.sel = .ok (some .write))
      (hwrites : R.Writes host i.taken i.opened es R') : Passes host R i es R'
  | startWrite {es : List Event} {R' : Receiver M}
      (htask : nexttask R i.sel = .ok (some .startWrite))
      (hstarts : Receiver.Starts host { R with write_ok := true } i.opened es R') :
      Passes host R i es R'
  | signalReady (htask : nexttask R i.sel = .ok (some .signalReady)) (hready : R.ready_fd ≥ 0) :
      Passes host R i [] { R with ready_fd := -1 }

/-- The steps of the receiver, in terms of the segments of its window. -/
theorem step_iff {L : SegmentList} {host : Host M} {R R' : Receiver M} {i : Input}
    {es : List Event} :
    R.Step L host i R' es ↔
      R.MayReport i.sel ∧ R.SS.min_file_nbr ≠ L.n_segments ∧ R.Passes host i es R' := by
  refine and_congr_right fun hmay => ?_
  unfold loopPass segstatesetGetMinFileNbr
  by_cases hdone : R.SS.min_file_nbr = L.n_segments
  · rw [if_pos hdone]
    constructor
    · intro h
      cases h
    · intro h
      exact absurd hdone h.1
  · rw [if_neg hdone]
    simp only [ne_eq, hdone, not_false_eq_true, true_and]
    constructor
    · intro h
      obtain ⟨task, htask, h⟩ := bind_eq_ok.mp h
      rcases task with _ | _ | _ | _ | _
      · cases h
      · simp only at h
        cases hrecv : i.recv with
        | error => rw [hrecv] at h; cases h
        | runt n => rw [hrecv] at h; cases h
        | packet d =>
            rw [hrecv] at h
            cases hget : receivePacket host R (cutDatagram d) i.opened with
            | error e => simp only [hget] at h; cases h
            | ok x =>
                simp only [hget] at h
                cases h
                exact .recv htask hrecv (gets_iff.mp hget)
      · obtain ⟨r, hr, h⟩ := bind_eq_ok.mp h
        cases h
        exact .write htask (writes_iff.mp ⟨r, hr, rfl, rfl⟩)
      · obtain ⟨r, hr, h⟩ := bind_eq_ok.mp h
        cases h
        have hfd := (nexttask_startWrite hmay htask).1
        exact .startWrite htask ((starts_iff (R := { R with write_ok := true }) hfd).mp
          ⟨r, hr, rfl, rfl⟩)
      · obtain ⟨_, hready, h⟩ := bind_eq_ok.mp h
        cases h
        exact .signalReady htask (check_eq_ok.mp hready)
    · intro h
      cases h with
      | recv htask hpkt hgets =>
          simp only [htask, ok_bind, hpkt, gets_iff.mpr hgets]
          rfl
      | write htask hwrites =>
          obtain ⟨r, hr, rfl, rfl⟩ := writes_iff.mpr hwrites
          simp only [htask, ok_bind, hr]
          rfl
      | startWrite htask hstarts =>
          have hfd := (nexttask_startWrite hmay htask).1
          obtain ⟨r, hr, rfl, rfl⟩ := (starts_iff (R := { R with write_ok := true })
            hfd).mpr hstarts
          simp only at hr
          simp only [htask, ok_bind, hr]
          rfl
      | signalReady htask hready =>
          simp only [htask, ok_bind, check_bind hready]
          rfl

/-! ## What is written -/

/-- The bytes that were written for segment `f`. -/
def bytesWritten (f : ℤ) (es : List Event) : List UInt8 :=
  es.flatMap fun
    | .wrote g bytes => if g = f then bytes else []
    | _ => []

@[simp] theorem bytesWritten_append (f : ℤ) (es es' : List Event) :
    bytesWritten f (es ++ es') = bytesWritten f es ++ bytesWritten f es' := List.flatMap_append

/-- What a write step writes. -/
theorem bytesWritten_wrote (f g : ℤ) (bytes : List UInt8) :
    bytesWritten f [.wrote g bytes] = (if g = f then bytes else []) ∧
      bytesWritten f [.wrote g bytes, .retired g] = if g = f then bytes else [] := by
  simp [bytesWritten]

theorem Receiver.Starts.bytesWritten {host : Host M} {R R' : Receiver M} {opened : Option ℕ}
    {es : List Event} (h : R.Starts host opened es R') (f : ℤ) : bytesWritten f es = [] := by
  cases h <;> rfl

theorem Receiver.Gets.bytesWritten {host : Host M} {R R' : Receiver M} {d : Datagram}
    {opened : Option ℕ} {es : List Event} (h : R.Gets host d opened es R') (f : ℤ) :
    bytesWritten f es = [] := by
  cases h with
  | outside | known | first => rfl
  | newest _ _ _ _ _ _ hstart =>
      rw [bytesWritten_append, hstart.bytesWritten]
      rfl

end RqRoute
