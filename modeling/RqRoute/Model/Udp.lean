import RqRoute.Model.Timeutil

/-! # Sending datagrams

`udp.c`: each message is sent or dropped, and the sender sleeps at the end of a burst so as
to keep to its speed. The clock is read where the source reads it, and what it shows there is
an input of the call. -/

namespace RqRoute

structure UdpParams where
  throttle_speed : ℚ
  drop_prob : ℚ
deriving DecidableEq

/-- The counter is exact too: it stays below 32768, so that the `size_t` of the source holds the
sum with the size of any message that fits into memory. -/
structure Udp where
  P : UdpParams
  throttle_nbytes : ℕ
  throttle_start : Timespec
deriving DecidableEq

/-- `RAND_MAX`. -/
def randMax : ℚ := 2147483647

variable {μ : Type*}

/-- One call of `udp_sendmsg`: its arguments, what `random` returns, when the call is made, and
what the clock shows at the two places where it may be read. -/
structure UdpCall (μ : Type*) where
  msg_size : ℕ
  msg : μ
  random : ℕ
  called : ℚ
  start : Timespec
  now : Timespec

inductive UdpEvent (μ : Type*) where
  | sendto (msg_size : ℕ) (msg : μ)
  | nanosleep (wait_dur : Timespec)
deriving DecidableEq

/-- `uninit` is what the new memory holds: `throttle_start` is not set. -/
def udpCreate (params : UdpParams) (uninit : Timespec) : Udp :=
  { P := params, throttle_nbytes := 0, throttle_start := uninit }

def sleepFrac (time_sec : ℚ) : List (UdpEvent μ) :=
  [.nanosleep (getTimespecFromSeconds time_sec)]

def udpSendmsg (U : Udp) (c : UdpCall μ) : Udp × List (UdpEvent μ) :=
  let sent :=
    if U.P.drop_prob = 0 ∨ c.random / (randMax + 1) ≥ U.P.drop_prob
      then [.sendto c.msg_size c.msg] else []
  if U.P.throttle_speed > 0 then
    let throttle_start := if U.throttle_nbytes = 0 then c.start else U.throttle_start
    let throttle_nbytes := U.throttle_nbytes + c.msg_size
    if throttle_nbytes ≥ 32768 then
      let delta := getDeltaSeconds c.now throttle_start
      let Mbits_sent : ℚ := throttle_nbytes * 8 / 1000000
      let time_needed := Mbits_sent / U.P.throttle_speed
      let slept := if time_needed > delta then sleepFrac (time_needed - delta) else []
      ({ U with throttle_start, throttle_nbytes := 0 }, sent ++ slept)
    else ({ U with throttle_start, throttle_nbytes }, sent)
  else (U, sent)

/-! ## Calls in time -/

/-- Between two calls: the sender, and what the clock shows when the last call has returned. -/
structure UdpState where
  U : Udp
  clock : ℚ

/-- One call on a clock that never goes back. A sleep that `nanosleep` accepts lasts at least as
long as asked. -/
structure UdpStep (s : UdpState) (c : UdpCall μ) (s' : UdpState) (es : List (UdpEvent μ)) :
    Prop where
  result : udpSendmsg s.U c = (s'.U, es)
  called : s.clock ≤ c.called
  start : c.called ≤ c.start.seconds
  now : c.start.seconds ≤ c.now.seconds
  returned : c.now.seconds ≤ s'.clock
  slept : ∀ wait_dur, .nanosleep wait_dur ∈ es → wait_dur.Valid →
    c.now.seconds + wait_dur.seconds ≤ s'.clock

end RqRoute
