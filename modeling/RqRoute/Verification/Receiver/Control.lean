import RqRoute.Verification.Receiver.Faults

/-! # The control automaton

What the course of the loop depends on are the modes of the segments, not their data. When
opening and writing succeed, every step of the loop is a step of the automaton that keeps
only those. -/

namespace RqRoute

open Checked Segstateset

variable {M : Type}

/-- The loop without the data. -/
structure Control where
  min : ℤ
  recv : ℤ
  mode : ℤ → Option SegstateMode
  writing : Bool
  write_ok : Bool
  started : Bool

namespace Control

/-- Nothing received yet. -/
def init : Control :=
  { min := 0, recv := -1, mode := fun _ => none
    writing := false, write_ok := false, started := false }

/-- Write the first segment when it is ready. -/
def start (c : Control) : Control :=
  if c.mode c.min = some .readyToWrite then
    { c with mode := Function.update c.mode c.min (some .writing), writing := true }
  else c

@[simp] theorem min_start (c : Control) : c.start.min = c.min := by
  unfold start
  split <;> rfl

@[simp] theorem recv_start (c : Control) : c.start.recv = c.recv := by
  unfold start
  split <;> rfl

@[simp] theorem write_ok_start (c : Control) : c.start.write_ok = c.write_ok := by
  unfold start
  split <;> rfl

theorem start_of_not_ready {c : Control} (h : c.mode c.min ≠ some .readyToWrite) :
    c.start = c := if_neg h

/-- What a first packet of segment `f` does to the mode of segment `g`. -/
def release (f g : ℤ) (mode : SegstateMode) : SegstateMode :=
  if mode = .receiving ∧ g < f then .readyToWrite else mode

/-- The first packet of segment `f` makes it enter; when it is the newest, those below it
become ready. -/
def enter (c : Control) (f : ℤ) : Control :=
  { c with
    started := true
    recv := max c.recv f
    mode := fun g =>
      if g = f then some .receiving
      else if f > c.recv then (c.mode g).map (release f g) else c.mode g }

/-- A packet of segment `f`. -/
def get (c : Control) (f : ℤ) : Control :=
  if (c.min ≤ f ∧ f < c.min + segstateSetN) ∧ c.mode f = none then
    if f > c.recv ∧ c.write_ok = true ∧ c.writing = false then (c.enter f).start else c.enter f
  else c

/-- The last write of the first segment. -/
def finish (c : Control) : Control :=
  start { c with
    min := c.min + 1
    mode := fun g => if g = c.min then none else c.mode g
    writing := false }

/-- The first deadline. -/
def timeout (c : Control) : Control := start { c with write_ok := true }

/-- The steps of the automaton; a packet may not come too late for its segment. -/
inductive Step : Control → Control → Prop
  | get {c : Control} (f : ℤ) (hf : 0 ≤ f) (hmode : c.mode f = none ∨ c.mode f = some .receiving ∨
      ¬(c.min ≤ f ∧ f < c.min + segstateSetN)) : Step c (c.get f)
  | more {c : Control} (hw : c.writing = true) : Step c c
  | finish {c : Control} (hw : c.writing = true) : Step c c.finish
  | timeout {c : Control} (hst : c.started = true) (hok : c.write_ok = false)
      (hw : c.writing = false) : Step c c.timeout
  | signal {c : Control} : Step c c

end Control

/-- What the automaton keeps of a receiver. -/
def Receiver.control (R : Receiver M) : Control :=
  { min := R.SS.min_file_nbr
    recv := R.recv_file_nbr
    mode := fun f => (R.SS.lookup f).map Segstate.mode
    writing := decide (R.out_fd ≠ -1)
    write_ok := R.write_ok
    started := R.started }

theorem control_init (host : Host M) (ready_fd : ℤ) :
    (Receiver.init host ready_fd).control = .init := by
  simp [Receiver.control, Receiver.init, Control.init]

theorem control_mode {R : Receiver M} {f : ℤ} {S : Segstate} (h : R.SS.lookup f = some S) :
    R.control.mode f = some S.mode := by
  simp [Receiver.control, h]

theorem control_mode_eq_none {R : Receiver M} {f : ℤ} :
    R.control.mode f = none ↔ R.SS.lookup f = none := by
  simp [Receiver.control]

theorem control_mode_eq_some {R : Receiver M} {f : ℤ} {mode : SegstateMode} :
    R.control.mode f = some mode ↔ ∃ S, R.SS.lookup f = some S ∧ S.mode = mode := by
  simp [Receiver.control]

/-! ## The tasks -/

namespace Receiver.Inv

variable {host : Host M} {R R' : Receiver M} {es : List Event}

theorem control_starts (h : R.Inv) (hfd : R.out_fd = -1) {opened : Option ℕ}
    (hopen : opened ≠ none) (hs : R.Starts host opened es R') : R'.control = R.control.start := by
  cases hs with
  | idle hnot =>
      rw [Control.start, if_neg]
      rintro hready
      obtain ⟨S, hS, hmode⟩ := control_mode_eq_some.mp hready
      exact hnot S hS hmode
  | refused _ _ hnone => exact absurd hnone hopen
  | @opens S fd m hS hmode _ hprep =>
      have hready : R.control.mode R.control.min = some .readyToWrite :=
        control_mode_eq_some.mpr ⟨S, hS, hmode⟩
      have hg := h.gathers_of_closed hfd hS
      obtain ⟨file_len, kept, hr⟩ := hg.receives
      obtain ⟨C, exit, m', S', -, -, -, -, hprep', hw, -⟩ :=
        hr.prepareOutput hg.out_fd_eq host fd R.codec_mem
      obtain rfl : _ = m := Except.ok.inj (hprep'.symm.trans hprep)
      have hne : (fd : ℤ) ≠ -1 := by omega
      rw [Control.start, if_pos hready]
      simp only [Receiver.control, min_put, Control.mk.injEq, true_and, and_true]
      refine ⟨?_, by simp [hne]⟩
      funext g
      rw [lookup_put R.SS.inWindow_min, Function.update_apply]
      split
      · simp [hw.mode_eq]
      · rfl

/-- The last write of a segment, and the start of the next. -/
theorem control_retire (h : R.Inv) {S : Segstate} (hS : R.SS.lookup R.SS.min_file_nbr = some S)
    (hmode : S.mode = .writing) {m : SegMem M} (hnbr : m.S.file_nbr = R.SS.min_file_nbr)
    {opened : Option ℕ} (hopen : opened ≠ none) (hs : (R.retire m).Starts host opened es R') :
    R'.control = R.control.finish := by
  rw [(h.retire hS hmode hnbr).control_starts rfl hopen hs, Control.finish]
  congr 1
  simp only [Receiver.control, Receiver.retire, min_incMinFileNbr, min_put, Control.mk.injEq,
    true_and, and_true]
  refine ⟨?_, rfl⟩
  funext g
  rw [lookup_incMinFileNbr, min_put]
  by_cases hg : g = R.SS.min_file_nbr
  · simp [hg]
  · simp only [hg, ↓reduceIte, lookup_put_of_ne R.SS.inWindow_min _ hg]

theorem control_writes (h : R.Inv) (hfd : R.out_fd ≠ -1) {taken opened : Option ℕ}
    (hopen : opened ≠ none) (hw : R.Writes host taken opened es R') :
    R'.control = R.control ∨ R'.control = R.control.finish := by
  obtain ⟨S, hS, hd⟩ := h.drains hfd
  obtain ⟨file_len, offs, hwr⟩ := hd.writes
  obtain ⟨w, hwrite, -, hnbr, -, hmore⟩ :=
    hwr.writeMore (by rw [hd.out_fd_eq]; exact hfd) host R.codec_mem taken
  cases hw with
  | more hS' hwrite' hm =>
      obtain rfl := Option.some.inj (hS.symm.trans hS')
      obtain rfl := Except.ok.inj (hwrite.symm.trans hwrite')
      obtain ⟨offs', hwr'⟩ := hmore hm
      refine .inl ?_
      simp only [Receiver.control, min_put, Control.mk.injEq, true_and, and_true]
      funext g
      rw [lookup_put R.SS.inWindow_min]
      split
      · rename_i hg
        rw [hg, hS]
        simp [hwr'.mode_eq, hwr.mode_eq]
      · rfl
  | last hS' hwrite' _ hstart =>
      obtain rfl := Option.some.inj (hS.symm.trans hS')
      obtain rfl := Except.ok.inj (hwrite.symm.trans hwrite')
      exact .inr (h.control_retire hS hwr.mode_eq hnbr hopen hstart)

theorem control_enter (h : R.Inv) {f : ℤ} (hin : R.SS.InWindow f) (file_len : ℕ) :
    (R.enter host f file_len).control = R.control.enter f := by
  simp only [Receiver.control, min_enter, recv_enter, out_fd_enter, write_ok_enter, started_enter,
    Control.enter, Control.mk.injEq, true_and, and_true]
  funext g
  rw [lookup_enter host hin]
  by_cases hg : g = f
  · simp only [hg, ↓reduceIte]
    rfl
  · by_cases hgt : f > R.recv_file_nbr
    · simp only [hg, hgt, ↓reduceIte]
      cases hS : R.SS.lookup g with
      | none => rfl
      | some S =>
          have hnbr := h.placed.file_nbr hS
          simp only [Option.map_some, markReady, Control.release, hnbr]
          split <;> rfl
    · simp only [hg, hgt, ↓reduceIte]

/-- Adding a packet changes no mode. -/
theorem control_addPacket {f : ℤ} {S S' : Segstate} (hS : R.SS.lookup f = some S)
    {header : RouteHeader} {payload : List UInt8}
    (hadd : segstateAddPacket S header payload = .ok S') :
    Receiver.control { R with SS := R.SS.put f S' } = R.control := by
  obtain ⟨-, -, -, cbs, rfl⟩ := segstateAddPacket_eq_ok hadd
  simp only [Receiver.control, min_put, Control.mk.injEq, true_and, and_true]
  funext g
  rw [lookup_put (lookup_inWindow hS)]
  split
  · rename_i hg
    rw [hg, hS]
    rfl
  · rfl

theorem control_gets (h : R.Inv) {d : Datagram} {opened : Option ℕ} (hopen : opened ≠ none)
    (hg : R.Gets host d opened es R') : R'.control = R.control.get d.header.toi.toNat := by
  cases hg with
  | outside hout => rw [Control.get, if_neg fun hc => hout hc.1]
  | known hS hadd =>
      rw [control_addPacket hS hadd, Control.get, if_neg]
      rintro ⟨-, hnone⟩
      rw [control_mode hS] at hnone
      cases hnone
  | first hin hnone hsmall hquiet hadd =>
      have hself := lookup_enter host hin d.header.tos.toNat d.header.toi.toNat
      rw [if_pos rfl] at hself
      rw [control_addPacket hself hadd, h.control_enter hin, Control.get,
        if_pos ⟨hin, control_mode_eq_none.mpr hnone⟩, if_neg]
      rintro ⟨hgt, hok, hw⟩
      exact hquiet ⟨hgt, hok, by simpa [Receiver.control] using hw⟩
  | newest hin hnone hsmall hgt hok hfd hstart hadd =>
      have hself := lookup_enter host hin d.header.tos.toNat d.header.toi.toNat
      rw [if_pos rfl] at hself
      have hinv := h.enter host hin (by omega) hnone hsmall
      rw [control_addPacket (hstart.lookup_receiving hself rfl).1 hadd,
        hinv.control_starts ((out_fd_enter ..).trans hfd) hopen hstart, h.control_enter hin,
        Control.get, if_pos ⟨hin, control_mode_eq_none.mpr hnone⟩,
        if_pos ⟨hgt, hok, by simp [Receiver.control, hfd]⟩]

/-- A step of the loop whose open succeeds is a step of the automaton. -/
theorem control_step {L : SegmentList} {i : Input} (h : R.Inv) (hopen : i.opened ≠ none)
    (hs : R.Step L host i R' es) : Control.Step R.control R'.control := by
  obtain ⟨hmay, -, hpass⟩ := step_iff.mp hs
  cases hpass with
  | @recv d _ _ _ _ hgets =>
      rw [h.control_gets hopen hgets]
      refine .get _ (by omega) ?_
      cases hgets with
      | outside hout => exact .inr (.inr hout)
      | known hS hadd =>
          refine .inr (.inl ?_)
          rw [control_mode hS, (segstateAddPacket_eq_ok hadd).2.2.1]
      | first _ hnone | newest _ hnone => exact .inl (control_mode_eq_none.mpr hnone)
  | write htask hwrites =>
      have hfd := nexttask_write htask
      have hw : R.control.writing = true := by simpa [Receiver.control] using hfd
      rcases h.control_writes hfd hopen hwrites with heq | heq
      · rw [heq]
        exact .more hw
      · rw [heq]
        exact .finish hw
  | startWrite htask hstarts =>
      obtain ⟨hfd, hst, hok⟩ := nexttask_startWrite hmay htask
      rw [(h.permit hst).control_starts hfd hopen hstarts]
      exact .timeout hst (by simpa [Receiver.control] using hok) (by simp [Receiver.control, hfd])
  | signalReady => exact .signal

end Receiver.Inv

end RqRoute
