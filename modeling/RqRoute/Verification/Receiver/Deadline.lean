import RqRoute.Model.Deadline
import RqRoute.Verification.Receiver.Progress
import RqRoute.Verification.Timeutil

/-! # The first deadline

The clock decides nothing but when `pselect` gives up waiting. So the receiver does on some clock
whatever the loop without times may do, and on every clock nothing is written before the first
packet's arrival and both delays. -/

namespace RqRoute

open Transition

variable {M : Type} {host : Host M} {L : SegmentList}

/-! ## Permission to write -/

theorem nexttask_startWrite_rv {R : Receiver M} {p : Pselect} (hmay : R.MayReport p)
    (h : nexttask R p = .ok (some .startWrite)) : p.rv = 0 := by
  have hfd := (nexttask_startWrite hmay h).1
  unfold nexttask at h
  rw [if_pos hfd] at h
  by_cases hneg : p.rv < 0
  · rw [if_pos hneg] at h
    cases h
  · by_cases hpos : p.rv > 0
    · exfalso
      rw [if_neg hneg, if_pos hpos] at h
      split at h
      · cases h
      · obtain ⟨_, _, h⟩ := Checked.bind_eq_ok.mp h
        cases h
    · omega

/-- What one pass does to the permission to write, and what it does without. -/
structure Receiver.Permission (R : Receiver M) (i : Input) (es : List Event) (R' : Receiver M) :
    Prop where
  started : R.started = true → R'.started = true
  granted : R'.write_ok = true → R.write_ok = true ∨ R.HasTimeout ∧ i.sel.rv = 0
  kept : R.write_ok = true → R'.write_ok = true
  waiting : R'.write_ok = false →
    R'.SS.min_file_nbr = R.SS.min_file_nbr ∧ ∀ e ∈ es, ∃ f d, e = .accepted f d

theorem Receiver.Inv.permission {R R' : Receiver M} {i : Input} {es : List Event} (h : R.Inv)
    (hs : R.Step L host i R' es) : R.Permission i es R' := by
  obtain ⟨hmay, -, hpass⟩ := step_iff.mp hs
  cases hpass with
  | recv _ _ hgets =>
      cases hgets with
      | outside => exact ⟨id, .inl, id, fun _ => ⟨rfl, by simp⟩⟩
      | known => exact ⟨id, .inl, id, fun _ => ⟨rfl, by simp⟩⟩
      | first =>
          exact ⟨fun _ => started_enter .., fun hok => .inl (by simpa using hok),
            fun hok => by simpa using hok, fun _ => ⟨min_enter .., by simp⟩⟩
      | newest _ _ _ _ hok _ hstart =>
          obtain ⟨-, -, hstarted, hwrite⟩ := hstart.frame
          have hkept := hwrite.trans ((write_ok_enter ..).trans hok)
          refine ⟨fun _ => hstarted.trans (started_enter ..), fun _ => .inl hok, fun _ => hkept, ?_⟩
          intro hno
          exact absurd (hkept.symm.trans hno) (by decide)
  | write htask hwrites =>
      have hok := h.permitted (nexttask_write htask)
      cases hwrites with
      | more => exact ⟨id, .inl, id, fun hno => absurd (hok.symm.trans hno) (by decide)⟩
      | last _ _ _ hstart =>
          obtain ⟨-, -, hstarted, hwrite⟩ := hstart.frame
          refine ⟨fun hst => hstarted.trans hst, fun _ => .inl hok, fun _ => hwrite.trans hok, ?_⟩
          intro hno
          exact absurd ((hwrite.trans hok).symm.trans hno) (by decide)
  | startWrite htask hstarts =>
      obtain ⟨-, -, hstarted, hwrite⟩ := hstarts.frame
      have hok : R'.write_ok = true := hwrite
      refine ⟨fun hst => hstarted.trans hst, fun _ => .inr ⟨nexttask_startWrite hmay htask,
        nexttask_startWrite_rv hmay htask⟩, fun _ => hok, fun hno => ?_⟩
      exact absurd (hok.symm.trans hno) (by decide)
  | signalReady => exact ⟨id, .inl, id, fun _ => ⟨rfl, by simp⟩⟩

/-! ## The clock -/

theorem timeoutUntil_valid (dline now : Timespec) : (timeoutUntil dline now).Valid := by
  unfold timeoutUntil
  by_cases hlate : getDeltaSeconds dline now > 0
  · rw [if_pos hlate]
    exact getTimespecFromSeconds_valid hlate.le
  · rw [if_neg hlate]
    exact ⟨le_rfl, le_rfl, by norm_num⟩

/-- The timeout ends at the deadline, or less than a nanosecond before; at once if that has
passed. -/
theorem timeoutUntil_seconds (dline now : Timespec) :
    dline.seconds - 1 / 10 ^ 9 < now.seconds + (timeoutUntil dline now).seconds ∧
      now.seconds + (timeoutUntil dline now).seconds ≤ max now.seconds dline.seconds := by
  simp only [timeoutUntil, getDeltaSeconds_eq]
  by_cases hlate : dline.seconds - now.seconds > 0
  · rw [if_pos hlate]
    have hlow := getTimespecFromSeconds_seconds hlate.le
    have hhigh := getTimespecFromSeconds_seconds_le hlate.le
    constructor
    · linarith only [hlow]
    · refine le_max_of_le_right ?_
      linarith only [hhigh]
  · rw [if_neg hlate]
    have hzero : (⟨0, 0⟩ : Timespec).seconds = 0 := by simp [Timespec.seconds]
    have hnano : (0 : ℚ) < 1 / 10 ^ 9 := by norm_num
    rw [hzero, add_zero]
    refine ⟨?_, le_max_left _ _⟩
    linarith only [hlate, hnano]

variable {deadline_delay extra_delay : ℚ}

/-- The deadline of the first segment is late by both delays. -/
theorem firstDeadline_zero {start_time : Timespec} (h : start_time.Normal)
    (hdeadline : FitsInt ⌊deadline_delay⌋) (hextra : FitsInt ⌊extra_delay⌋) :
    ∃ dline, firstDeadline start_time deadline_delay extra_delay 0 = some dline ∧
      start_time.seconds + deadline_delay + extra_delay - 2 / 10 ^ 9 < dline.seconds ∧
      dline.seconds ≤ start_time.seconds + deadline_delay + extra_delay := by
  obtain ⟨first, hfirst, hnormal, hlow, hhigh⟩ := addDeltaTo_eq h hdeadline
  obtain ⟨dline, hdline, -, hlow', hhigh'⟩ := addDeltaTo_eq hnormal hextra
  refine ⟨dline, ?_, ?_, ?_⟩
  · rw [firstDeadline, hfirst]
    exact hdline
  · have hnano : (2 : ℚ) / 10 ^ 9 = 1 / 10 ^ 9 + 1 / 10 ^ 9 := by norm_num
    linarith only [hlow, hlow', hnano]
  · linarith only [hhigh, hhigh']

theorem firstDeadline_isSome {start_time : Timespec} (h : start_time.Normal)
    (hdeadline : FitsInt ⌊deadline_delay⌋) (hextra : FitsInt ⌊extra_delay⌋) (seg_nbr : ℤ) :
    ∃ dline, firstDeadline start_time deadline_delay extra_delay seg_nbr = some dline := by
  obtain ⟨first, hfirst, hnormal, -⟩ := addDeltaTo_eq h hdeadline
  obtain ⟨dline, hdline, -⟩ := addDeltaTo_eq hnormal hextra
  rw [firstDeadline, hfirst]
  by_cases hzero : seg_nbr = 0
  · exact ⟨dline, by simpa [hzero] using hdline⟩
  · exact ⟨first, by simp [hzero]⟩

/-! ## Runs on a clock -/

/-- When the first segment is due: the arrival of the first packet and both delays. -/
def TimedReceiver.due (s : TimedReceiver M) (deadline_delay extra_delay : ℚ) : ℚ :=
  s.start_time.seconds + deadline_delay + extra_delay

/-- What the clock shows at the top of the loop. -/
structure TimedReceiver.Inv (deadline_delay extra_delay : ℚ) (s : TimedReceiver M) : Prop where
  loop : s.R.Inv
  started : s.R.started = true → s.start_time.Normal
  waiting : s.R.write_ok = false → s.R.SS.min_file_nbr = 0
  permitted : s.R.write_ok = true →
    s.due deadline_delay extra_delay - 3 / 10 ^ 9 < s.clock
  deadline_fits : FitsInt ⌊deadline_delay⌋
  extra_fits : FitsInt ⌊extra_delay⌋

namespace TimedReceiver

/-- While the loop waits for the first deadline, that is the deadline. -/
theorem Inv.deadline {s : TimedReceiver M} (h : s.Inv deadline_delay extra_delay)
    (hwait : s.R.HasTimeout) : s.R.SS.min_file_nbr = 0 ∧
      ∃ dline, firstDeadline s.start_time deadline_delay extra_delay 0 = some dline ∧
        s.due deadline_delay extra_delay - 2 / 10 ^ 9 < dline.seconds ∧
        dline.seconds ≤ s.due deadline_delay extra_delay := by
  obtain ⟨-, hstarted, hno⟩ := hwait
  exact ⟨h.waiting (by simpa using hno),
    firstDeadline_zero (h.started hstarted) h.deadline_fits h.extra_fits⟩

theorem Step.clock_le {s s' : TimedReceiver M} {i : TimedInput} {es : List Event}
    (hs : s.Step L host deadline_delay extra_delay i s' es) :
    s.clock ≤ i.woken ∧ i.woken ≤ s'.clock :=
  ⟨hs.now.trans hs.woken, hs.first_recv.trans hs.returned⟩

/-- A pass that may write, or that permits it, comes after the deadline. -/
theorem Inv.late {s s' : TimedReceiver M} {i : TimedInput} {es : List Event}
    (h : s.Inv deadline_delay extra_delay) (hs : s.Step L host deadline_delay extra_delay i s' es)
    (hok : s'.R.write_ok = true) :
    s'.start_time = s.start_time ∧
      s.due deadline_delay extra_delay - 3 / 10 ^ 9 < i.woken := by
  have hkeep : s.R.started = true → s'.start_time = s.start_time := by
    intro hstarted
    rw [hs.start_time, if_neg fun hnew => hnew.2 hstarted]
  rcases (h.loop.permission hs.pass).granted hok with hold | ⟨hwait, hrv⟩
  · refine ⟨hkeep (h.loop.started_of_ok hold), ?_⟩
    linarith only [h.permitted hold, hs.clock_le.1]
  · obtain ⟨hmin, dline, hdline, hlow, -⟩ := h.deadline hwait
    obtain ⟨dline', hdline', hwoken⟩ := hs.timeout hwait
    rw [hmin, hdline] at hdline'
    obtain rfl := Option.some.inj hdline'
    refine ⟨hkeep hwait.2.1, ?_⟩
    have hnano : (3 : ℚ) / 10 ^ 9 = 2 / 10 ^ 9 + 1 / 10 ^ 9 := by norm_num
    linarith only [hlow, hwoken hrv, (timeoutUntil_seconds dline i.now).1, hnano]

theorem Inv.step {s s' : TimedReceiver M} {i : TimedInput} {es : List Event}
    (h : s.Inv deadline_delay extra_delay)
    (hs : s.Step L host deadline_delay extra_delay i s' es) :
    s'.Inv deadline_delay extra_delay := by
  have hperm := h.loop.permission hs.pass
  constructor
  case loop => exact h.loop.step hs.pass
  case started =>
    intro hstarted
    rw [hs.start_time]
    by_cases hnew : s'.R.started = true ∧ ¬s.R.started = true
    · rw [if_pos hnew]
      exact hs.first_recv_normal
    · rw [if_neg hnew]
      exact h.started (by_contra fun hno => hnew ⟨hstarted, hno⟩)
  case waiting =>
    intro hno
    have hbefore : s.R.write_ok = false := by
      cases hok : s.R.write_ok with
      | false => rfl
      | true => exact (hperm.kept hok).symm.trans hno
    rw [(hperm.waiting hno).1, h.waiting hbefore]
  case permitted =>
    intro hok
    obtain ⟨hstart, hlate⟩ := h.late hs hok
    rw [TimedReceiver.due, hstart, ← TimedReceiver.due]
    linarith only [hlate, hs.clock_le.2]
  case deadline_fits => exact h.deadline_fits
  case extra_fits => exact h.extra_fits

theorem inv_of_run (hdeadline : FitsInt ⌊deadline_delay⌋) (hextra : FitsInt ⌊extra_delay⌋)
    {ready_fd : ℤ} {uninit : Timespec} {clock : ℚ} {s : TimedReceiver M}
    {t : List (Entry (TimedReceiver M) TimedInput Event)}
    (h : Run (TimedReceiver.Step L host deadline_delay extra_delay)
      (TimedReceiver.init host ready_fd uninit clock) t s) :
    s.Inv deadline_delay extra_delay := by
  refine h.invariant ⟨inv_init host ready_fd, ?_, fun _ => rfl, ?_, hdeadline, hextra⟩
    fun _ _ _ _ hinv hs => hinv.step hs
  · intro hno
    cases hno
  · intro hno
    cases hno

end TimedReceiver

/-- In every run on a clock, while the loop waits for the first segment, that is the first of
the list, no assertion on the deadline fails, and the wait ends when it is due but for less than
three nanoseconds, at once if that has passed; and before then the loop does nothing but accept
packets. -/
theorem first_deadline (hdeadline : FitsInt ⌊deadline_delay⌋) (hextra : FitsInt ⌊extra_delay⌋)
    {ready_fd : ℤ} {uninit : Timespec} {clock : ℚ} {s s' : TimedReceiver M}
    {t : List (Entry (TimedReceiver M) TimedInput Event)}
    (h : Run (TimedReceiver.Step L host deadline_delay extra_delay)
      (TimedReceiver.init host ready_fd uninit clock) t s)
    {i : TimedInput} {es : List Event}
    (hs : s.Step L host deadline_delay extra_delay i s' es) :
    (s.R.HasTimeout → s.R.SS.min_file_nbr = 0 ∧
      ∃ dline, firstDeadline s.start_time deadline_delay extra_delay 0 = some dline ∧
        (timeoutUntil dline i.now).Valid ∧
        s.due deadline_delay extra_delay - 3 / 10 ^ 9 <
          i.now.seconds + (timeoutUntil dline i.now).seconds ∧
        i.now.seconds + (timeoutUntil dline i.now).seconds ≤
          max i.now.seconds (s.due deadline_delay extra_delay)) ∧
      ∀ e ∈ es, (∃ f d, e = .accepted f d) ∨
        s.due deadline_delay extra_delay - 3 / 10 ^ 9 < i.woken := by
  have hinv := TimedReceiver.inv_of_run hdeadline hextra h
  constructor
  · intro hwait
    obtain ⟨hmin, dline, hdline, hlow, hhigh⟩ := hinv.deadline hwait
    obtain ⟨hafter, hbefore⟩ := timeoutUntil_seconds dline i.now
    refine ⟨hmin, dline, hdline, timeoutUntil_valid _ _, ?_, ?_⟩
    · have hnano : (3 : ℚ) / 10 ^ 9 = 2 / 10 ^ 9 + 1 / 10 ^ 9 := by norm_num
      linarith only [hlow, hafter, hnano]
    · exact hbefore.trans (max_le_max le_rfl hhigh)
  · intro e he
    cases hok : s'.R.write_ok with
    | false => exact .inl (((hinv.loop.permission hs.pass).waiting hok).2 e he)
    | true => exact .inr (hinv.late hs hok).2

/-- Whatever the loop may do next, it may do on the clock, if its passes take their time. -/
theorem exists_timed_step (hdeadline : FitsInt ⌊deadline_delay⌋)
    (hextra : FitsInt ⌊extra_delay⌋) {s : TimedReceiver M}
    (hnormal : s.R.started = true → s.start_time.Normal) {i : Input} {R' : Receiver M}
    {es : List Event} (hs : s.R.Step L host i R' es) :
    ∃ j s', s.Step L host deadline_delay extra_delay j s' es ∧ s'.R = R' ∧
      (s'.R.started = true → s'.start_time.Normal) := by
  obtain ⟨now, -, hnow⟩ := exists_timespec_ge s.clock
  obtain ⟨woken, hwoken, hwait⟩ : ∃ woken, now.seconds ≤ woken ∧ (s.R.HasTimeout → ∃ dline,
      firstDeadline s.start_time deadline_delay extra_delay s.R.SS.min_file_nbr = some dline ∧
        now.seconds + (timeoutUntil dline now).seconds ≤ woken) := by
    by_cases hwait : s.R.HasTimeout
    · obtain ⟨dline, hdline⟩ := firstDeadline_isSome (hnormal hwait.2.1) hdeadline hextra
        s.R.SS.min_file_nbr
      exact ⟨max now.seconds (now.seconds + (timeoutUntil dline now).seconds), le_max_left _ _,
        fun _ => ⟨dline, hdline, le_max_right _ _⟩⟩
    · exact ⟨now.seconds, le_rfl, fun h => absurd h hwait⟩
  obtain ⟨first, hfirst, hlater⟩ := exists_timespec_ge woken
  refine ⟨⟨i, now, woken, first⟩,
    ⟨R', if R'.started ∧ ¬s.R.started then first else s.start_time, first.seconds⟩,
    ⟨hs, rfl, hnow, ?_, hwoken, hlater, hfirst, le_rfl⟩, rfl, ?_⟩
  · intro h
    obtain ⟨dline, hdline, hle⟩ := hwait h
    exact ⟨dline, hdline, fun _ => hle⟩
  · intro hstarted
    by_cases hbefore : s.R.started = true
    · simpa [hbefore] using hnormal hbefore
    · have hnew : R'.started = true := hstarted
      simpa [hbefore, hnew] using hfirst

theorem exists_timed_run (hdeadline : FitsInt ⌊deadline_delay⌋) (hextra : FitsInt ⌊extra_delay⌋)
    {ready_fd : ℤ} (uninit : Timespec) (clock : ℚ) {R : Receiver M}
    {t : List (Entry (Receiver M) Input Event)}
    (h : Run (Receiver.Step L host) (Receiver.init host ready_fd) t R) :
    ∃ u s, Run (TimedReceiver.Step L host deadline_delay extra_delay)
        (TimedReceiver.init host ready_fd uninit clock) u s ∧
      (s.R = R ∧ (s.R.started = true → s.start_time.Normal)) ∧ events u = events t := by
  have hstep : ∀ R i R' es (s : TimedReceiver M),
      (s.R = R ∧ (s.R.started = true → s.start_time.Normal)) → Receiver.Step L host R i R' es →
      ∃ j s', s.Step L host deadline_delay extra_delay j s' es ∧
        (s'.R = R' ∧ (s'.R.started = true → s'.start_time.Normal)) := by
    rintro R i R' es s ⟨rfl, hnormal⟩ hs
    exact exists_timed_step hdeadline hextra hnormal hs
  have hinit : (TimedReceiver.init host ready_fd uninit clock).R = Receiver.init host ready_fd ∧
      ((TimedReceiver.init host ready_fd uninit clock).R.started = true →
        (TimedReceiver.init host ready_fd uninit clock).start_time.Normal) := by
    refine ⟨rfl, ?_⟩
    intro hno
    cases hno
  exact h.simulate hstep hinit

/-- The clock neither adds nor removes behaviour: for any two delays whose seconds fit
into an `int`, the states that the loop reaches on some clock, and what it shows on the way, are
those of the loop without times. -/
theorem timed_iff_untimed (hdeadline : FitsInt ⌊deadline_delay⌋) (hextra : FitsInt ⌊extra_delay⌋)
    (L : SegmentList) (host : Host M)
    (ready_fd : ℤ) (uninit : Timespec) (clock : ℚ) (R : Receiver M) (es : List Event) :
    (∃ t s, Run (TimedReceiver.Step L host deadline_delay extra_delay)
        (TimedReceiver.init host ready_fd uninit clock) t s ∧ s.R = R ∧ events t = es) ↔
      ∃ t, Run (Receiver.Step L host) (Receiver.init host ready_fd) t R ∧ events t = es := by
  constructor
  · rintro ⟨t, s, hrun, rfl, rfl⟩
    have hstep : ∀ (s : TimedReceiver M) i s' es R, s.R = R →
        s.Step L host deadline_delay extra_delay i s' es →
        ∃ j R', Receiver.Step L host R j R' es ∧ s'.R = R' := by
      rintro s i s' es R rfl hs
      exact ⟨i.input, s'.R, hs.pass, rfl⟩
    obtain ⟨u, R, hu, rfl, hevents⟩ := hrun.simulate hstep rfl
    exact ⟨u, hu, hevents⟩
  · rintro ⟨t, hrun, rfl⟩
    obtain ⟨u, s, hu, ⟨hR, -⟩, hevents⟩ :=
      exists_timed_run hdeadline hextra uninit clock hrun
    exact ⟨u, s, hu, hR, hevents⟩

theorem fitsInt_floor_three : FitsInt ⌊(3 : ℚ)⌋ := by
  rw [Int.floor_ofNat]
  decide

/-- Packets of two of three tiny files arrive, and the first one is opened: this takes place on a
clock as well. -/
theorem timed_iff_untimed_tiny :
    ∃ (t : List (Entry (TimedReceiver Unit) TimedInput Event)) (s : TimedReceiver Unit),
      Run (TimedReceiver.Step (tinyList 3) refusingHost 3 3)
        (TimedReceiver.init refusingHost (-1) ⟨0, 0⟩ 0) t s ∧ s.R.out_fd ≠ -1 := by
  obtain ⟨t, R, R₁, es, hrun, -, -, hstep, hctl⟩ := tiny_timeout refusingHost refusingHost
    (n := 3) (by decide) (L := tinyList 3) (-1) [0, 1] (by decide) (by decide) rfl (by decide)
    (by decide) (by decide) (by decide)
  have hrun₁ := (hrun.snoc hstep).mono fun _ _ _ _ hs => hs.2.2
  obtain ⟨u, s, hu, hR, -⟩ := (timed_iff_untimed fitsInt_floor_three fitsInt_floor_three
    (tinyList 3) refusingHost (-1) ⟨0, 0⟩ 0 R₁ _).mpr ⟨_, hrun₁, rfl⟩
  have hfd : s.R.out_fd ≠ -1 := hR ▸ of_decide_eq_true (congrArg Control.writing hctl)
  exact ⟨u, s, hu, hfd⟩

/-- Two of three tiny files have arrived, and the loop waits one second and three more. -/
theorem first_deadline_tiny :
    ∃ (s : TimedReceiver Unit) (i : TimedInput) (dline : Timespec), s.R.HasTimeout ∧
      firstDeadline s.start_time 1 3 0 = some dline ∧
      s.due 1 3 - 3 / 10 ^ 9 < i.now.seconds + (timeoutUntil dline i.now).seconds := by
  obtain ⟨t, R, R₁, es, hrun, -, hctl, hstep, -⟩ := tiny_timeout refusingHost refusingHost
    (n := 3) (by decide) (L := tinyList 3) (-1) [0, 1] (by decide) (by decide) rfl (by decide)
    (by decide) (by decide) (by decide)
  have hone : FitsInt ⌊(1 : ℚ)⌋ := by
    rw [Int.floor_one]
    decide
  obtain ⟨u, s, hu, ⟨rfl, hnormal⟩, -⟩ := exists_timed_run hone fitsInt_floor_three ⟨0, 0⟩ 0
    (hrun.mono fun _ _ _ _ hs => hs.2.2)
  obtain ⟨i, s', hs, -⟩ := exists_timed_step hone fitsInt_floor_three hnormal hstep.2.2
  have hwait : s.R.HasTimeout := by
    have hwriting := congrArg Control.writing hctl
    have hok : s.R.write_ok = false := congrArg Control.write_ok hctl
    have hstarted : s.R.started = true := congrArg Control.started hctl
    exact ⟨by simpa using of_decide_eq_false hwriting, hstarted, by simp [hok]⟩
  obtain ⟨-, dline, hdline, -, hlow, -⟩ := (first_deadline hone fitsInt_floor_three hu hs).1 hwait
  exact ⟨s, i, dline, hwait, hdline, hlow⟩

end RqRoute
