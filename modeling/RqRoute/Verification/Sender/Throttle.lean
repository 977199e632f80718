import Mathlib.Algebra.BigOperators.Group.List.Basic
import Mathlib.Tactic.FieldSimp
import RqRoute.Library.Pacing
import RqRoute.Library.Transition
import RqRoute.Model.Udp
import RqRoute.Verification.Timeutil

/-! # The speed of the sender

Each burst takes at least the time its bytes need, less the fraction of a nanosecond that the
sleep is cut by. Bursts do not overlap, so that the times add up. -/

namespace RqRoute

open Transition Pacing

variable {μ : Type*}

/-! ## One call -/

/-- When the burst that a call belongs to began. -/
def burstStart (U : Udp) (c : UdpCall μ) : Timespec :=
  if U.throttle_nbytes = 0 then c.start else U.throttle_start

/-- The seconds that `nbytes` bytes take at a speed in Mbit/s. -/
def timeNeeded (throttle_speed : ℚ) (nbytes : ℕ) : ℚ := nbytes * 8 / 1000000 / throttle_speed

/-- What is left of that time when the call looks at the clock. -/
def timeLeft (U : Udp) (c : UdpCall μ) : ℚ :=
  timeNeeded U.P.throttle_speed (U.throttle_nbytes + c.msg_size) -
    (c.now.seconds - (burstStart U c).seconds)

/-- A call either adds to the burst, or completes it and sleeps for the rest of its time. -/
theorem udpSendmsg_cases {U U' : Udp} {c : UdpCall μ} {es : List (UdpEvent μ)}
    (hspeed : 0 < U.P.throttle_speed) (h : udpSendmsg U c = (U', es)) :
    (U.throttle_nbytes + c.msg_size < 32768 ∧
      U' = { U with
        throttle_start := burstStart U c
        throttle_nbytes := U.throttle_nbytes + c.msg_size }) ∨
    (32768 ≤ U.throttle_nbytes + c.msg_size ∧
      U' = { U with throttle_start := burstStart U c, throttle_nbytes := 0 } ∧
      (0 < timeLeft U c → .nanosleep (getTimespecFromSeconds (timeLeft U c)) ∈ es)) := by
  unfold udpSendmsg at h
  simp only [if_pos hspeed, getDeltaSeconds_eq, ge_iff_le] at h
  by_cases hfull : 32768 ≤ U.throttle_nbytes + c.msg_size
  · rw [if_pos hfull] at h
    obtain ⟨rfl, rfl⟩ := Prod.mk.inj h
    refine .inr ⟨hfull, rfl, ?_⟩
    intro hleft
    apply List.mem_append_right
    change _ ∈ if timeNeeded _ _ > c.now.seconds - (burstStart U c).seconds
      then sleepFrac (timeLeft U c) else []
    rw [if_pos (sub_pos.mp hleft)]
    exact List.mem_singleton_self _
  · rw [if_neg hfull] at h
    obtain ⟨rfl, -⟩ := Prod.mk.inj h
    exact .inl ⟨by omega, rfl⟩

theorem udpSendmsg_P (U : Udp) (c : UdpCall μ) : (udpSendmsg U c).1.P = U.P := by
  unfold udpSendmsg
  dsimp only
  split
  · split <;> rfl
  · rfl

/-- A burst takes the time that its bytes need, up to one nanosecond. -/
theorem UdpStep.burst_time {s s' : UdpState} {c : UdpCall μ} {es : List (UdpEvent μ)}
    (h : UdpStep s c s' es)
    (hslept : 0 < timeLeft s.U c →
      .nanosleep (getTimespecFromSeconds (timeLeft s.U c)) ∈ es) :
    timeNeeded s.U.P.throttle_speed (s.U.throttle_nbytes + c.msg_size) ≤
      s'.clock - (burstStart s.U c).seconds + 1 / 10 ^ 9 := by
  have hreturned := h.returned
  have hpos : (0 : ℚ) < 1 / 10 ^ 9 := by norm_num
  by_cases hleft : 0 < timeLeft s.U c
  · have hasked := getTimespecFromSeconds_seconds hleft.le
    have hlasted := h.slept _ (hslept hleft) (getTimespecFromSeconds_valid hleft.le)
    unfold timeLeft at *
    linarith only [hasked, hlasted]
  · unfold timeLeft at hleft
    linarith only [hleft, hreturned, hpos]

theorem timeNeeded_mul {throttle_speed : ℚ} (hspeed : 0 < throttle_speed) (nbytes : ℕ) :
    throttle_speed * 10 ^ 6 * timeNeeded throttle_speed nbytes = 8 * nbytes := by
  unfold timeNeeded
  field_simp
  ring

/-- The window of a burst, in the terms of its bits. -/
theorem UdpStep.burst_within {s s' : UdpState} {c : UdpCall μ} {es : List (UdpEvent μ)}
    (hspeed : 0 < s.U.P.throttle_speed) (h : UdpStep s c s' es)
    (hslept : 0 < timeLeft s.U c →
      .nanosleep (getTimespecFromSeconds (timeLeft s.U c)) ∈ es) :
    Within (s.U.P.throttle_speed * 10 ^ 6) (1 / 10 ^ 9) (burstStart s.U c).seconds s'.clock 1
      (8 * (s.U.throttle_nbytes + c.msg_size : ℕ)) := by
  have hrate : 0 ≤ s.U.P.throttle_speed * 10 ^ 6 := mul_nonneg hspeed.le (by norm_num)
  rw [Within, ← timeNeeded_mul hspeed, Nat.cast_one, one_mul]
  exact mul_le_mul_of_nonneg_left (h.burst_time hslept) hrate

/-! ## The calls of a run -/

abbrev UdpEntry (μ : Type*) := Entry UdpState (UdpCall μ) (UdpEvent μ)

/-- The call ends a burst. -/
def CompletesBurst (x : UdpEntry μ) : Prop :=
  32768 ≤ x.before.U.throttle_nbytes + x.input.msg_size

instance (x : UdpEntry μ) : Decidable (CompletesBurst x) :=
  inferInstanceAs (Decidable (_ ≤ _))

/-- The bits passed to `udp_sendmsg`, whether sent or dropped. -/
def bitsPassed (t : List (UdpEntry μ)) : ℕ := 8 * (t.map fun x => x.input.msg_size).sum

/-- The number of bursts that were completed. -/
def burstsDone (t : List (UdpEntry μ)) : ℕ := t.countP fun x => decide (CompletesBurst x)

theorem bitsPassed_append (t u : List (UdpEntry μ)) :
    bitsPassed (t ++ u) = bitsPassed t + bitsPassed u := by
  simp only [bitsPassed, List.map_append, List.sum_append, Nat.mul_add]

theorem bitsPassed_singleton (x : UdpEntry μ) : bitsPassed [x] = 8 * x.input.msg_size := by
  simp [bitsPassed]

theorem burstsDone_append (t u : List (UdpEntry μ)) :
    burstsDone (t ++ u) = burstsDone t + burstsDone u := List.countP_append

theorem burstsDone_singleton (x : UdpEntry μ) :
    burstsDone [x] = if CompletesBurst x then 1 else 0 := by
  simp [burstsDone, List.countP_cons]

/-! ## Bursts in sequence -/

/-- Up to where the completed bursts are accounted for: the start of the burst that is under
way, or the present. -/
def UdpState.mark (s : UdpState) : ℚ :=
  if s.U.throttle_nbytes = 0 then s.clock else s.U.throttle_start.seconds

/-- After the calls `t`, of which the first was made at time `a`, the bits of the completed
bursts kept to the speed. -/
structure Paced (P : UdpParams) (a : ℚ) (t : List (UdpEntry μ)) (s : UdpState) : Prop where
  params : s.U.P = P
  within : Within (P.throttle_speed * 10 ^ 6) (1 / 10 ^ 9) a s.mark (burstsDone t)
    (bitsPassed t - 8 * s.U.throttle_nbytes)

/-- A burst starts no earlier than the mark before it. -/
theorem UdpStep.mark_le_burstStart {s s' : UdpState} {c : UdpCall μ} {es : List (UdpEvent μ)}
    (h : UdpStep s c s' es) : s.mark ≤ (burstStart s.U c).seconds := by
  unfold UdpState.mark burstStart
  by_cases hempty : s.U.throttle_nbytes = 0
  · rw [if_pos hempty, if_pos hempty]
    exact h.called.trans h.start
  · rw [if_neg hempty, if_neg hempty]

/-- One more call keeps the account. -/
theorem Paced.step {P : UdpParams} (hspeed : 0 < P.throttle_speed) {a : ℚ}
    {t : List (UdpEntry μ)} {s s' : UdpState} {x : UdpEntry μ} (hp : Paced P a t s)
    (hx : x.before.U = s.U) (h : UdpStep s x.input s' x.events) : Paced P a (t ++ [x]) s' := by
  obtain ⟨rfl, hwithin⟩ := hp
  have hrate : 0 ≤ s.U.P.throttle_speed * 10 ^ 6 := mul_nonneg hspeed.le (by norm_num)
  have hopen := hwithin.wait hrate h.mark_le_burstStart
  have hbits : (bitsPassed (t ++ [x]) : ℚ) = bitsPassed t + 8 * x.input.msg_size := by
    rw [bitsPassed_append, bitsPassed_singleton]
    push_cast
    rfl
  have hbursts : burstsDone (t ++ [x]) =
      burstsDone t + if 32768 ≤ s.U.throttle_nbytes + x.input.msg_size then 1 else 0 := by
    simp only [burstsDone_append, burstsDone_singleton, CompletesBurst, hx]
  rcases udpSendmsg_cases hspeed h.result with ⟨hroom, hU⟩ | ⟨hfull, hU, hslept⟩
  · -- the burst goes on: the account stays the same
    refine ⟨by rw [hU], ?_⟩
    have hmark : (burstStart s.U x.input).seconds ≤ s'.mark := by
      unfold UdpState.mark
      rw [hU]
      split
      · rename_i hempty
        have hfirst : s.U.throttle_nbytes = 0 := by
          simp only at hempty
          omega
        rw [burstStart, if_pos hfirst]
        exact h.now.trans h.returned
      · exact le_rfl
    have hwork : (bitsPassed (t ++ [x]) : ℚ) - 8 * s'.U.throttle_nbytes =
        bitsPassed t - 8 * s.U.throttle_nbytes := by
      rw [hbits, hU]
      push_cast
      ring
    rw [hbursts, if_neg (by omega), hwork]
    exact hopen.wait hrate hmark
  · -- the burst is one more window
    refine ⟨by rw [hU], ?_⟩
    have hmark : s'.mark = s'.clock := by
      unfold UdpState.mark
      rw [hU, if_pos rfl]
    have hwork : (bitsPassed (t ++ [x]) : ℚ) - 8 * s'.U.throttle_nbytes =
        (bitsPassed t - 8 * s.U.throttle_nbytes) +
          8 * (s.U.throttle_nbytes + x.input.msg_size : ℕ) := by
      rw [hbits, hU]
      push_cast
      ring
    rw [hbursts, if_pos hfull, hwork, hmark]
    exact hopen.append (h.burst_within hspeed hslept)

/-- A call may be taken to begin when it is made. -/
theorem UdpStep.of_called {s s' : UdpState} {c : UdpCall μ} {es : List (UdpEvent μ)}
    (h : UdpStep s c s' es) : UdpStep { s with clock := c.called } c s' es :=
  { h with called := le_rfl }

/-- Before the first call nothing is owed. -/
theorem paced_create (P : UdpParams) (uninit : Timespec) (a : ℚ) :
    Paced P a ([] : List (UdpEntry μ)) { U := udpCreate P uninit, clock := a } := by
  refine ⟨rfl, ?_⟩
  simp [Within, UdpState.mark, udpCreate, bitsPassed, burstsDone]

/-- Every run keeps the account that its first call opens. -/
theorem paced_of_run {P : UdpParams} (hspeed : 0 < P.throttle_speed) {uninit : Timespec}
    {clock : ℚ} {first : UdpEntry μ} {t : List (UdpEntry μ)} {s : UdpState}
    (hrun : Run UdpStep { U := udpCreate P uninit, clock } (first :: t) s) :
    Paced P first.input.called (first :: t) s := by
  obtain ⟨s₁, hbefore, hfirst, hrest⟩ := hrun.of_cons
  have hp₁ : Paced P first.input.called [first] s₁ :=
    (paced_create P uninit first.input.called).step hspeed (by rw [hbefore]) hfirst.of_called
  exact hrest.history (P := fun u s => Paced P first.input.called (first :: u) s) hp₁
    fun u s c s' es hp hstep => hp.step hspeed rfl hstep

/-- Between two calls the burst is not complete. -/
theorem throttle_nbytes_lt {P : UdpParams} (hspeed : 0 < P.throttle_speed) {uninit : Timespec}
    {clock : ℚ} {t : List (UdpEntry μ)} {s : UdpState}
    (hrun : Run UdpStep { U := udpCreate P uninit, clock } t s) :
    s.U.P = P ∧ s.U.throttle_nbytes < 32768 := by
  apply hrun.invariant
  case hinit => exact ⟨rfl, by simp [udpCreate]⟩
  case hstep =>
    rintro s c s' es ⟨rfl, -⟩ hstep
    rcases udpSendmsg_cases hspeed hstep.result with ⟨hroom, hU⟩ | ⟨-, hU, -⟩
    · exact ⟨by rw [hU], by rw [hU]; exact hroom⟩
    · exact ⟨by rw [hU], by rw [hU]; simp⟩

/-- The sum that `udp_sendmsg` adds up does not wrap around in `size_t`. -/
theorem throttle_nbytes_fits {P : UdpParams} (hspeed : 0 < P.throttle_speed) {uninit : Timespec}
    {clock : ℚ} {t : List (UdpEntry μ)} {s : UdpState}
    (hrun : Run UdpStep { U := udpCreate P uninit, clock } t s) {msg_size : ℕ}
    (hsize : msg_size ≤ 2 ^ 63) :
    (s.U.throttle_nbytes + msg_size) % 2 ^ 64 = s.U.throttle_nbytes + msg_size := by
  obtain ⟨-, hlt⟩ := throttle_nbytes_lt hspeed hrun
  exact Nat.mod_eq_of_lt (by omega)

/-- A call that completes a burst leaves an empty one. -/
theorem UdpStep.mark_of_completes {s s' : UdpState} {c : UdpCall μ} {es : List (UdpEvent μ)}
    (hspeed : 0 < s'.U.P.throttle_speed) (h : UdpStep s c s' es)
    (hdone : 32768 ≤ s.U.throttle_nbytes + c.msg_size) :
    s'.U.throttle_nbytes = 0 ∧ s'.mark = s'.clock := by
  have hP : s'.U.P = s.U.P := by
    have hsame := udpSendmsg_P s.U c
    rwa [h.result] at hsame
  rw [hP] at hspeed
  rcases udpSendmsg_cases hspeed h.result with ⟨hroom, -⟩ | ⟨-, hU, -⟩
  · omega
  · have hempty : s'.U.throttle_nbytes = 0 := by rw [hU]
    exact ⟨hempty, if_pos hempty⟩

/-- At the return of a call that completes a burst, the bits passed so far fit into the time
since the first call at the given speed, with one nanosecond more for each burst. -/
theorem throttle_bound {P : UdpParams} (hspeed : 0 < P.throttle_speed) {uninit : Timespec}
    {clock : ℚ} {t : List (UdpEntry μ)} {first last : UdpEntry μ} {s : UdpState}
    (hrun : Run UdpStep { U := udpCreate P uninit, clock } t s)
    (hfirst : t.head? = some first) (hlast : t.getLast? = some last)
    (hdone : CompletesBurst last) :
    (bitsPassed t : ℚ) ≤ P.throttle_speed * 10 ^ 6 *
      (s.clock - first.input.called + burstsDone t * (1 / 10 ^ 9)) := by
  obtain ⟨u, rfl⟩ := List.getLast?_eq_some_iff.mp hlast
  obtain ⟨rest, hrest⟩ := List.head?_eq_some_iff.mp hfirst
  obtain ⟨-, hstep⟩ := hrun.of_concat
  have hpaced : Paced P first.input.called (u ++ [last]) s := by
    rw [hrest] at hrun ⊢
    exact paced_of_run hspeed hrun
  obtain ⟨rfl, hwithin⟩ := hpaced
  obtain ⟨hempty, hmark⟩ := hstep.mark_of_completes hspeed hdone
  rwa [hmark, hempty, Nat.cast_zero, mul_zero, sub_zero] at hwithin

/-- Two messages of 20000 bytes at 8 Mbit/s, 10 ms apart. The second completes the burst and
sleeps for the other 30 ms. -/
def twoMessages : List (UdpEntry Unit) :=
  [{ before := { U := udpCreate { throttle_speed := 8, drop_prob := 0 } ⟨0, 0⟩, clock := 0 }
     input := { msg_size := 20000, msg := (), random := 0
                called := 0, start := ⟨0, 0⟩, now := ⟨0, 0⟩ }
     events := [.sendto 20000 ()] },
   { before := { U := { P := { throttle_speed := 8, drop_prob := 0 }
                        throttle_nbytes := 20000, throttle_start := ⟨0, 0⟩ }
                 clock := 0 }
     input := { msg_size := 20000, msg := (), random := 0
                called := 1 / 100, start := ⟨0, 10000000⟩, now := ⟨0, 10000000⟩ }
     events := [.sendto 20000 (), .nanosleep ⟨0, 30000000⟩] }]

theorem run_twoMessages :
    Run UdpStep { U := udpCreate { throttle_speed := 8, drop_prob := 0 } ⟨0, 0⟩, clock := 0 }
      twoMessages
      { U := udpCreate { throttle_speed := 8, drop_prob := 0 } ⟨0, 0⟩, clock := 4 / 100 } := by
  refine Run.snoc (t := [_]) (Run.single ?_) ?_
  · constructor
    case result => decide +kernel
    case slept =>
      intro wait_dur hmem
      simp at hmem
    all_goals decide +kernel
  · constructor
    case result => decide +kernel
    case slept =>
      intro wait_dur hmem _
      obtain rfl : wait_dur = ⟨0, 30000000⟩ := by simpa using hmem
      decide +kernel
    all_goals decide +kernel

theorem throttle_bound_twoMessages :
    bitsPassed twoMessages = 320000 ∧ burstsDone twoMessages = 1 ∧
      (bitsPassed twoMessages : ℚ) ≤
        8 * 10 ^ 6 * (4 / 100 - 0 + burstsDone twoMessages * (1 / 10 ^ 9)) := by
  refine ⟨by decide +kernel, by decide +kernel, ?_⟩
  have hspeed : (0 : ℚ) < 8 := by norm_num
  have hbound := throttle_bound hspeed run_twoMessages rfl rfl (by decide +kernel)
  exact hbound

end RqRoute
