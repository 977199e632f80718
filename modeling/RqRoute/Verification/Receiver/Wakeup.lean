import RqRoute.Verification.Receiver.Progress

/-! # The writer is never left asleep

A segment becomes ready in one place and is started in three others. Between two passes
there is never a ready first segment that an idle writer was allowed to start. -/

namespace RqRoute

open Checked Segstateset Transition

variable {M : Type}

/-! ## The automaton -/

/-- Once writing is allowed, a released first segment is being written. -/
def Control.Prompt (c : Control) : Prop :=
  c.write_ok = true → c.writing = false → c.mode c.min ≠ some .readyToWrite

namespace Control

theorem mode_start {c : Control} (h : c.mode c.min = some .readyToWrite) :
    c.start.mode c.min = some .writing := by
  rw [start, if_pos h]
  exact Function.update_self ..

theorem min_get (c : Control) (f : ℤ) : (c.get f).min = c.min := by
  unfold get
  split
  · split
    · rw [min_start]
      rfl
    · rfl
  · rfl

theorem prompt_start (c : Control) : c.start.Prompt := by
  unfold start
  split
  · intro _ hw
    cases hw
  · rename_i hno
    exact fun _ _ => hno

theorem Prompt.get {c : Control} (h : c.Prompt) (f : ℤ) : (c.get f).Prompt := by
  unfold Control.get
  split
  · split
    · exact prompt_start _
    · rename_i hquiet
      intro hok hw
      have hold : ¬f > c.recv := fun hgt => hquiet ⟨hgt, hok, hw⟩
      simp only [enter, if_neg hold]
      split
      · simp
      · exact h hok hw
  · exact h

theorem Prompt.step {c c' : Control} (h : c.Prompt) (hs : Step c c') : c'.Prompt := by
  cases hs with
  | get f => exact h.get f
  | more | signal => exact h
  | finish | timeout => exact prompt_start _

/-- A newer segment releases the first one. -/
theorem get_releases {c : Control} {f : ℤ} (hin : c.min ≤ f ∧ f < c.min + segstateSetN)
    (hnone : c.mode f = none) (hnew : c.recv < f) (hlt : c.min < f)
    (hfirst : c.mode c.min = some .receiving) :
    (c.get f).mode c.min = some .readyToWrite ∨ (c.get f).mode c.min = some .writing := by
  have hrel : (c.enter f).mode c.min = some .readyToWrite := by
    simp only [enter]
    rw [if_neg (by omega), if_pos hnew, hfirst]
    simp [release, hlt]
  unfold Control.get
  rw [if_pos ⟨hin, hnone⟩]
  split
  · exact .inr (mode_start (c := c.enter f) hrel)
  · exact .inl hrel

/-- A ready segment stays ready until it is written. -/
theorem ready_start {c : Control} {f : ℤ} (h : c.mode f = some .readyToWrite) :
    c.start.mode f = some .readyToWrite ∨ c.start.mode f = some .writing := by
  unfold start
  split
  · by_cases hf : f = c.min
    · exact .inr (by simp [hf])
    · exact .inl (by simp [hf, h])
  · exact .inl h

theorem Step.ready {c c' : Control} (hs : Step c c')
    (h : c.mode c'.min = some .readyToWrite) :
    c'.mode c'.min = some .readyToWrite ∨ c'.mode c'.min = some .writing := by
  cases hs with
  | get f =>
      rw [min_get] at h ⊢
      unfold Control.get
      split
      · rename_i hnew
        have hne : c.min ≠ f := fun heq => by simp [← heq, h] at hnew
        have henter : (c.enter f).mode c.min = some .readyToWrite := by
          simp only [enter, if_neg hne, h]
          split <;> simp [release]
        split
        · exact ready_start henter
        · exact .inl henter
      · exact .inl h
  | more | signal => exact .inl h
  | finish =>
      rw [Control.finish, min_start] at h ⊢
      exact ready_start (by simpa using h)
  | timeout =>
      rw [Control.timeout, min_start] at h ⊢
      exact ready_start h

end Control

/-! ## The receiver -/

/-- A step in which `open` succeeds, if it is called. -/
def OpeningStep (L : SegmentList) (host : Host M) (R : Receiver M) (i : Input) (R' : Receiver M)
    (es : List Event) : Prop := i.opened ≠ none ∧ R.Step L host i R' es

/-- The pass receives the first packet of a segment that is newer than all seen, so that those
below it become ready; `f` is one of these. -/
def Receiver.Releases (R : Receiver M) (i : Input) (f : ℤ) : Prop :=
  nexttask R i.sel = .ok (some .recv) ∧ ∃ d, i.recv = .packet d ∧
    R.SS.InWindow d.header.toi.toNat ∧ R.SS.lookup d.header.toi.toNat = none ∧
    R.recv_file_nbr < d.header.toi.toNat ∧ f < d.header.toi.toNat

section
variable {L : SegmentList} {host : Host M} {ready_fd : ℤ} {R R' : Receiver M}
  {t : List (Entry (Receiver M) Input Event)} {i : Input} {es : List Event}

theorem prompt_of_run (h : Run (OpeningStep L host) (Receiver.init host ready_fd) t R) :
    R.Inv ∧ R.control.Prompt := by
  refine h.invariant (P := fun R => R.Inv ∧ R.control.Prompt)
    ⟨inv_init host ready_fd, fun hok => by cases hok⟩ ?_
  rintro S i S' es ⟨hinv, hp⟩ ⟨hopen, hstep⟩
  exact ⟨hinv.step hstep, hp.step (hinv.control_step hopen hstep)⟩

/-- A first segment that has been released is being written, once that is allowed. -/
theorem Receiver.Inv.awake (h : R.Inv) (hp : R.control.Prompt) (hok : R.write_ok = true)
    (hmode : R.control.mode R.SS.min_file_nbr = some .readyToWrite ∨
      R.control.mode R.SS.min_file_nbr = some .writing) :
    R.out_fd ≠ -1 ∧ ∃ S, R.SS.lookup R.SS.min_file_nbr = some S ∧ S.mode = .writing := by
  have hfd : R.out_fd ≠ -1 := by
    intro hidle
    rcases hmode with hready | hwriting
    · exact hp hok (by simp [Receiver.control, hidle]) hready
    · obtain ⟨S, hS, hm⟩ := control_mode_eq_some.mp hwriting
      exact (h.gathers_of_closed hidle hS).mode_ne hm
  exact ⟨hfd, h.writer hfd⟩

/-- The step that receives the releasing packet. -/
theorem Receiver.Inv.released (h : R.Inv) (hopen : i.opened ≠ none)
    (hs : R.Step L host i R' es) (hrel : R.Releases i R'.SS.min_file_nbr)
    (hmode : R.control.mode R'.SS.min_file_nbr = some .receiving) :
    R'.control.mode R'.SS.min_file_nbr = some .readyToWrite ∨
      R'.control.mode R'.SS.min_file_nbr = some .writing := by
  obtain ⟨htask, d, hpkt, hin, hnone, hnew, hlt⟩ := hrel
  obtain ⟨-, -, hpass⟩ := step_iff.mp hs
  cases hpass with
  | @recv d' _ _ _ hpkt' hgets =>
      obtain rfl : d = d' := Recv.packet.inj (hpkt.symm.trans hpkt')
      have hctl : R'.control = R.control.get d.header.toi.toNat :=
        h.control_gets (d := cutDatagram d) hopen hgets
      have hmin : R'.SS.min_file_nbr = R.SS.min_file_nbr := by
        have hm := congrArg Control.min hctl
        rwa [Control.min_get] at hm
      rw [hmin] at hlt hmode ⊢
      rw [hctl]
      exact Control.get_releases hin (control_mode_eq_none.mpr hnone) hnew hlt hmode
  | write htask' | startWrite htask' | signalReady htask' =>
      rw [htask] at htask'
      cases htask'

/-- In every state of every run whose opens succeed, an idle writer that may write has no ready
segment to write. A first segment that is ready before a step, or becomes ready in it, is being
written after it, once writing is allowed: so it is when the deadline passes, when its
predecessor has been written, and when a newer segment arrives. -/
theorem no_lost_wakeup (h : Run (OpeningStep L host) (Receiver.init host ready_fd) t R) :
    (R.write_ok = true → R.out_fd = -1 →
      ∀ S, R.SS.lookup R.SS.min_file_nbr = some S → S.mode ≠ .readyToWrite) ∧
    ∀ i R' es, OpeningStep L host R i R' es → R'.write_ok = true →
      ∀ S, R.SS.lookup R'.SS.min_file_nbr = some S →
        S.mode = .readyToWrite ∨ S.mode = .receiving ∧ R.Releases i R'.SS.min_file_nbr →
        R'.out_fd ≠ -1 ∧
          ∃ S', R'.SS.lookup R'.SS.min_file_nbr = some S' ∧ S'.mode = .writing := by
  obtain ⟨hinv, hp⟩ := prompt_of_run h
  constructor
  · intro hok hidle S hS hready
    refine hp hok (by simp [Receiver.control, hidle]) ?_
    rw [← hready]
    exact control_mode hS
  · rintro i R' es ⟨hopen, hstep⟩ hok S hS hmode
    obtain ⟨hinv', hp'⟩ := prompt_of_run (h.snoc ⟨hopen, hstep⟩)
    refine hinv'.awake hp' hok ?_
    rcases hmode with hready | ⟨hrecv, hrel⟩
    · refine (hinv.control_step hopen hstep).ready ?_
      rw [← hready]
      exact control_mode hS
    · refine hinv.released hopen hstep hrel ?_
      rw [← hrecv]
      exact control_mode hS

end

/-- Two of three tiny files arrive, and the deadline passes. -/
theorem no_lost_wakeup_timeout :
    ∃ (R R' : Receiver Unit) (es : List Event),
      R.Step (tinyList 3) refusingHost timeoutInput R' es ∧
      R.control.mode 0 = some .readyToWrite ∧ R'.out_fd ≠ -1 := by
  obtain ⟨t, R, R', es, hrun, -, hctl, hstep, hctl'⟩ := tiny_timeout refusingHost refusingHost
    (n := 3) (by decide) (L := tinyList 3) (-1) [0, 1] (by decide) (by decide) rfl (by decide)
    (by decide) (by decide) (by decide)
  have hready : R.control.mode 0 = some .readyToWrite := by rw [hctl]; decide
  obtain ⟨S, hS, hmode⟩ := control_mode_eq_some.mp hready
  have hmin' : R'.SS.min_file_nbr = 0 := congrArg Control.min hctl'
  have hok' : R'.write_ok = true := congrArg Control.write_ok hctl'
  refine ⟨R, R', es, hstep.2.2, hready, ?_⟩
  exact ((no_lost_wakeup (hrun.mono fun _ _ _ _ hs => ⟨hs.1.1, hs.2.2⟩)).2 timeoutInput R' es
    ⟨hstep.1.1, hstep.2.2⟩ hok' S (by rw [hmin']; exact hS) (.inl hmode)).1

end RqRoute
