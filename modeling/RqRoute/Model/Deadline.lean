import RqRoute.Model.Receiver
import RqRoute.Model.Timeutil

/-! # The first deadline

`receiver.c` once more, with the clock. Until the first segment may be written, `pselect` gets a
timeout, which the loop computes anew in each of its passes. -/

namespace RqRoute

variable {M : Type}

/-- `dline`; `none` where `add_delta_to` has no result. -/
def firstDeadline (start_time : Timespec) (deadline_delay extra_delay : ℚ) (seg_nbr : ℤ) :
    Option Timespec := do
  let dline ← addDeltaTo start_time deadline_delay
  if seg_nbr = 0 then addDeltaTo dline extra_delay else return dline

/-- `timeout`. -/
def timeoutUntil (dline now : Timespec) : Timespec :=
  let delta := getDeltaSeconds dline now
  if delta > 0 then getTimespecFromSeconds delta else { tv_sec := 0, tv_nsec := 0 }

/-- At the top of the loop: its variables, and what the clock shows. -/
structure TimedReceiver (M : Type) where
  R : Receiver M
  start_time : Timespec
  clock : ℚ

/-- `uninit` is what `start_time` holds before it is set. -/
def TimedReceiver.init (host : Host M) (ready_fd : ℤ) (uninit : Timespec) (clock : ℚ) :
    TimedReceiver M :=
  { R := .init host ready_fd, start_time := uninit, clock }

/-- The two readings of the clock, those that are not made included, and the time at which
`pselect` returns. -/
structure TimedInput where
  input : Input
  now : Timespec
  woken : ℚ
  first_recv : Timespec

/-- A pass on a clock that never goes back. No descriptor is ready only after the whole
timeout. -/
structure TimedReceiver.Step (L : SegmentList) (host : Host M) (deadline_delay extra_delay : ℚ)
    (s : TimedReceiver M) (i : TimedInput) (s' : TimedReceiver M) (es : List Event) : Prop where
  pass : s.R.Step L host i.input s'.R es
  start_time : s'.start_time =
    if s'.R.started ∧ ¬s.R.started then i.first_recv else s.start_time
  now : s.clock ≤ i.now.seconds
  timeout : s.R.HasTimeout → ∃ dline,
    firstDeadline s.start_time deadline_delay extra_delay s.R.SS.min_file_nbr = some dline ∧
      (i.input.sel.rv = 0 → i.now.seconds + (timeoutUntil dline i.now).seconds ≤ i.woken)
  woken : i.now.seconds ≤ i.woken
  first_recv : i.woken ≤ i.first_recv.seconds
  first_recv_normal : i.first_recv.Normal
  returned : i.first_recv.seconds ≤ s'.clock

end RqRoute
