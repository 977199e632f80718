import RqRoute.Verification.Sender.Settings

/-! # The traffic of the sender

The speed may be changed between two files, a burst may be left open while the sender waits, and
it may be closed at another speed. Over any stretch of a run, what is sent still keeps to the
highest speed in force there, but for the bytes of two bursts. -/

namespace RqRoute

open Checked Memory Pacing Text Transition

/-! ## One call -/

section
variable {μ : Type*} {v a : ℚ} {m b : ℕ} {s s' : UdpState} {c : UdpCall μ}
  {es : List (UdpEvent μ)}

/-- The account of the `b` bytes of a stretch that began at time `a`, in messages of up to `m`
bytes and at speeds up to `v`. The burst that was open at its beginning may have lasted for any
time; those after it are paced. -/
inductive Account (v : ℚ) (m : ℕ) (a : ℚ) (b : ℕ) (s : UdpState) : Prop
  | opening (hbytes : b ≤ s.U.throttle_nbytes) (hclock : a ≤ s.clock)
  | paced (n lead : ℕ) (hlead : lead ≤ 32767 + m)
      (hbytes : 32768 * n + lead + s.U.throttle_nbytes ≤ b)
      (hwithin : Within (v * 10 ^ 6) (1 / 10 ^ 9) a s.mark n
        (8 * (b - lead - s.U.throttle_nbytes)))
      (hmark : s.mark ≤ s.clock)

/-- Time may pass, and the speed may be set. -/
theorem Account.pause (hv : 0 ≤ v) (h : Account v m a b s)
    (hnbytes : s'.U.throttle_nbytes = s.U.throttle_nbytes)
    (hstart : s'.U.throttle_start = s.U.throttle_start) (hclock : s.clock ≤ s'.clock) :
    Account v m a b s' := by
  cases h with
  | opening hbytes ha => exact .opening (by rwa [hnbytes]) (ha.trans hclock)
  | paced n lead hlead hbytes hwithin hmark =>
      have hrate : 0 ≤ v * 10 ^ 6 := mul_nonneg hv (by norm_num)
      have hmarks : s.mark ≤ s'.mark ∧ s'.mark ≤ s'.clock := by
        unfold UdpState.mark at hmark ⊢
        rw [hnbytes, hstart]
        split
        · exact ⟨hclock, le_rfl⟩
        · rename_i hopen
          rw [if_neg hopen] at hmark
          exact ⟨le_rfl, hmark.trans hclock⟩
      refine .paced n lead hlead (by rwa [hnbytes]) ?_ hmarks.2
      rw [hnbytes]
      exact hwithin.wait hrate hmarks.1

theorem UdpStep.clock_le (h : UdpStep s c s' es) : s.clock ≤ s'.clock :=
  h.called.trans (h.start.trans (h.now.trans h.returned))

/-- A burst has begun when a call of it returns. -/
theorem UdpStep.burstStart_le (h : UdpStep s c s' es) (hmark : s.mark ≤ s.clock) :
    (burstStart s.U c).seconds ≤ s'.clock := by
  unfold burstStart
  unfold UdpState.mark at hmark
  split
  · exact h.now.trans h.returned
  · rename_i hopen
    rw [if_neg hopen] at hmark
    exact hmark.trans h.clock_le

/-- One more call at a speed up to `v`. -/
theorem Account.call (hspeed : 0 < s.U.P.throttle_speed) (hv : s.U.P.throttle_speed ≤ v)
    (hsize : c.msg_size ≤ m) (hroom : s.U.throttle_nbytes < 32768) (h : Account v m a b s)
    (hs : UdpStep s c s' es) : Account v m a (b + c.msg_size) s' := by
  have hrate : 0 ≤ v * 10 ^ 6 := mul_nonneg (hspeed.le.trans hv) (by norm_num)
  rcases udpSendmsg_cases hspeed hs.result with ⟨-, hU⟩ | ⟨hfull, hU, hslept⟩
  · -- the burst goes on
    have hnbytes : s'.U.throttle_nbytes = s.U.throttle_nbytes + c.msg_size := by rw [hU]
    cases h with
    | opening hbytes ha => exact .opening (by omega) (ha.trans hs.clock_le)
    | paced n lead hlead hbytes hwithin hmark =>
        have hmarks : (burstStart s.U c).seconds ≤ s'.mark ∧ s'.mark ≤ s'.clock := by
          unfold UdpState.mark
          split
          · exact ⟨hs.burstStart_le hmark, le_rfl⟩
          · rw [hU]
            exact ⟨le_rfl, hs.burstStart_le hmark⟩
        refine .paced n lead hlead (by omega) ?_ hmarks.2
        have hwork : (8 * ((b + c.msg_size : ℕ) - lead - s'.U.throttle_nbytes) : ℚ) =
            8 * (b - lead - s.U.throttle_nbytes) := by
          rw [hnbytes]
          push_cast
          ring
        rw [hwork]
        exact hwithin.wait hrate (hs.mark_le_burstStart.trans hmarks.1)
  · -- the burst ends, and counts from here on unless it is the first
    have hnbytes : s'.U.throttle_nbytes = 0 := by rw [hU]
    have hmark' : s'.mark = s'.clock := if_pos hnbytes
    cases h with
    | opening hbytes ha =>
        refine .paced 0 (b + c.msg_size) (by omega) (by omega) ?_ hmark'.le
        rw [hmark', hnbytes, Nat.cast_zero, sub_self, sub_zero, mul_zero]
        exact Within.pause hrate (ha.trans hs.clock_le)
    | paced n lead hlead hbytes hwithin hmark =>
        refine .paced (n + 1) lead hlead (by omega) ?_ hmark'.le
        have hburst := (hs.burst_within hspeed hslept).faster
          (mul_le_mul_of_nonneg_right hv (by norm_num)) (by norm_num) (hs.burstStart_le hmark)
        have hwork : (8 * ((b + c.msg_size : ℕ) - lead - s'.U.throttle_nbytes) : ℚ) =
            8 * (b - lead - s.U.throttle_nbytes) +
              8 * (s.U.throttle_nbytes + c.msg_size : ℕ) := by
          rw [hnbytes]
          push_cast
          ring
        rw [hwork, hmark']
        exact (hwithin.wait hrate hs.mark_le_burstStart).append hburst

/-- What the account allows when one more message comes. -/
theorem Account.conforms (hv : 0 ≤ v) (h : Account v m a b s)
    (hroom : s.U.throttle_nbytes < 32768) {called : ℚ} (hcalled : s.clock ≤ called) {size : ℕ}
    (hsize : size ≤ m) :
    ∃ n, 32768 * n ≤ b ∧ Conforms (v * 10 ^ 6) (1 / 10 ^ 9) (8 * (2 * (32767 + m)) : ℚ) a called n
      (8 * (b + size)) := by
  have hrate : 0 ≤ v * 10 ^ 6 := mul_nonneg hv (by norm_num)
  have hopen : (s.U.throttle_nbytes : ℚ) ≤ 32767 := by exact_mod_cast Nat.le_of_lt_succ hroom
  have hlast : (size : ℚ) ≤ m := Nat.cast_le.mpr hsize
  cases h with
  | opening hbytes ha =>
      refine ⟨0, by omega, ?_⟩
      have hall : (b : ℚ) ≤ s.U.throttle_nbytes := Nat.cast_le.mpr hbytes
      have hm : (0 : ℚ) ≤ m := Nat.cast_nonneg m
      have hextra : (8 * (b + size) : ℚ) ≤ 8 * (2 * (32767 + m)) := by
        linarith only [hall, hopen, hlast, hm]
      have hpause : Within (v * 10 ^ 6) (1 / 10 ^ 9) a s.clock 0 0 := Within.pause hrate ha
      rw [← zero_add (8 * (b + size : ℚ))]
      exact hpause.conforms hrate hcalled hextra
  | paced n lead hlead hbytes hwithin hmark =>
      refine ⟨n, by omega, ?_⟩
      have hfirst : (lead : ℚ) ≤ 32767 + m := by exact_mod_cast hlead
      have hextra : (8 * (lead + s.U.throttle_nbytes + size) : ℚ) ≤ 8 * (2 * (32767 + m)) := by
        linarith only [hfirst, hopen, hlast]
      have hwork : (8 * (b + size) : ℚ) = 8 * (b - lead - s.U.throttle_nbytes) +
          8 * (lead + s.U.throttle_nbytes + size) := by ring
      rw [hwork]
      exact hwithin.conforms hrate (hmark.trans hcalled) hextra

/-! ## All calls -/

/-- A message passed to `udp_sendmsg`, with the speed in force. -/
structure Passed (μ : Type*) where
  throttle_speed : ℚ
  call : UdpCall μ

def passedBytes (l : List (Passed μ)) : ℕ := (l.map fun p => p.call.msg_size).sum

/-- The throttle is on, and set to at most `v`. -/
def SpeedUpTo (v : ℚ) (l : List (Passed μ)) : Prop :=
  ∀ p ∈ l, 0 < p.throttle_speed ∧ p.throttle_speed ≤ v

/-- From the first to the last of these calls. -/
def KeepsTo (v : ℚ) (m : ℕ) (l : List (Passed μ)) : Prop :=
  ∀ first last, l.head? = some first → l.getLast? = some last →
    ∃ n, 32768 * n ≤ passedBytes l ∧
      Conforms (v * 10 ^ 6) (1 / 10 ^ 9) (8 * (2 * (32767 + m)) : ℚ) first.call.called
        last.call.called n (8 * passedBytes l)

/-- After the calls `l`: any stretch up to the present has its account, and any stretch at all
has kept to its speed. -/
structure Enveloped (m : ℕ) (l : List (Passed μ)) (s : UdpState) : Prop where
  room : s.U.throttle_nbytes < 32768
  account : ∀ v w first, w <:+ l → w.head? = some first → SpeedUpTo v w →
    Account v m first.call.called (passedBytes w) s
  keeps : ∀ v w, w <:+: l → SpeedUpTo v w → KeepsTo v m w

variable {l : List (Passed μ)}

theorem passedBytes_append (l l' : List (Passed μ)) :
    passedBytes (l ++ l') = passedBytes l + passedBytes l' := by
  rw [passedBytes, List.map_append, List.sum_append]
  rfl

theorem SpeedUpTo.nonneg {w : List (Passed μ)} {p : Passed μ} (h : SpeedUpTo v w) (hp : p ∈ w) :
    0 ≤ v := (h p hp).1.le.trans (h p hp).2

/-- Before the first call. -/
theorem enveloped_create (m : ℕ) (params : UdpParams) (uninit : Timespec) (clock : ℚ) :
    Enveloped m ([] : List (Passed μ)) { U := udpCreate params uninit, clock } where
  room := by simp [udpCreate]
  account v w first hw hfirst := by
    rw [List.suffix_nil.mp hw] at hfirst
    cases hfirst
  keeps v w hw _ first last hfirst := by
    rw [List.infix_nil.mp hw] at hfirst
    cases hfirst

theorem Enveloped.pause (h : Enveloped m l s)
    (hnbytes : s'.U.throttle_nbytes = s.U.throttle_nbytes)
    (hstart : s'.U.throttle_start = s.U.throttle_start) (hclock : s.clock ≤ s'.clock) :
    Enveloped m l s' where
  room := by
    rw [hnbytes]
    exact h.room
  account v w first hw hfirst hspeed :=
    (h.account v w first hw hfirst hspeed).pause (hspeed.nonneg (List.mem_of_head? hfirst))
      hnbytes hstart hclock
  keeps := h.keeps

/-- A stretch that the call `c` ends: the account of what comes before it. -/
theorem Enveloped.account_called (h : Enveloped m l s) {w : List (Passed μ)} (hw : w <:+ l)
    {p first : Passed μ} (hfirst : (w ++ [p]).head? = some first)
    (hspeed : SpeedUpTo v (w ++ [p])) (hcalled : s.clock ≤ p.call.called) :
    Account v m first.call.called (passedBytes w) { s with clock := p.call.called } := by
  cases w with
  | nil =>
      obtain rfl : p = first := by simpa using hfirst
      exact .opening (Nat.zero_le _) le_rfl
  | cons q w =>
      obtain rfl : q = first := by simpa using hfirst
      refine (h.account v _ q hw rfl fun p hp => hspeed p (List.mem_append_left _ hp)).pause
        (hspeed.nonneg (List.mem_cons_self ..)) rfl rfl hcalled

/-- One more call. -/
theorem Enveloped.call (h : Enveloped m l s) (hsize : c.msg_size ≤ m) (hs : UdpStep s c s' es) :
    Enveloped m (l ++ [⟨s.U.P.throttle_speed, c⟩]) s' where
  room := by
    by_cases hspeed : 0 < s.U.P.throttle_speed
    · rcases udpSendmsg_cases hspeed hs.result with ⟨hroom, hU⟩ | ⟨-, hU, -⟩
      · rw [hU]
        exact hroom
      · rw [hU]
        exact Nat.zero_lt_succ _
    · have hU : s'.U = s.U := by
        have hresult := congrArg Prod.fst hs.result
        rw [udpSendmsg, if_neg hspeed] at hresult
        exact hresult.symm
      rw [hU]
      exact h.room
  account v w first hw hfirst hspeed := by
    rcases List.suffix_concat_iff.mp hw with rfl | ⟨u, rfl, hu⟩
    · cases hfirst
    · obtain ⟨hon, hup⟩ := hspeed ⟨s.U.P.throttle_speed, c⟩ (by simp)
      have hbefore := h.account_called hu hfirst hspeed hs.called
      rw [passedBytes_append]
      exact Account.call (s := { s with clock := c.called }) hon hup hsize h.room hbefore
        hs.of_called
  keeps v w hw hspeed := by
    rcases List.infix_concat_iff.mp hw with hend | hold
    · rcases List.suffix_concat_iff.mp hend with rfl | ⟨u, rfl, hu⟩
      · intro first last hfirst
        cases hfirst
      · intro first last hfirst hlast
        obtain rfl : ⟨s.U.P.throttle_speed, c⟩ = last := by simpa using hlast
        have hv := hspeed.nonneg (List.mem_append_right u (List.mem_singleton_self _))
        obtain ⟨n, hn, hconforms⟩ := (h.account_called hu hfirst hspeed hs.called).conforms hv
          h.room le_rfl hsize
        have hbytes : passedBytes (u ++ [⟨s.U.P.throttle_speed, c⟩]) =
            passedBytes u + c.msg_size := passedBytes_append ..
        refine ⟨n, by omega, ?_⟩
        rw [hbytes, Nat.cast_add]
        exact hconforms
    · exact h.keeps v w hold hspeed

/-- The calls of a transmission, all at one speed. -/
theorem Enveloped.calls (h : Enveloped m l s) {t : List (UdpEntry μ)} (hrun : Run UdpStep s t s')
    (hsize : ∀ x ∈ t, x.input.msg_size ≤ m) :
    Enveloped m (l ++ t.map fun x => ⟨s.U.P.throttle_speed, x.input⟩) s' ∧ s'.U.P = s.U.P := by
  induction hrun with
  | nil => exact ⟨by simpa using h, rfl⟩
  | @snoc t s₁ s₂ c es _ hlast ih =>
      obtain ⟨henv, hP⟩ := ih fun x hx => hsize x (List.mem_append_left _ hx)
      have hP₂ := udpSendmsg_P s₁.U c
      rw [hlast.result] at hP₂
      have hnext := henv.call (hsize ⟨s₁, c, es⟩ (by simp)) hlast
      rw [hP] at hnext
      exact ⟨by simpa using hnext, hP₂.trans hP⟩

end

/-! ## The size of a datagram -/

section
variable {M : Type}

theorem Xmit.of_mem_sent_foldlM {γ δ : Type} {xs : List γ} {f : δ → γ → Xmit δ} {a : δ}
    {d : Datagram} (h : d ∈ (xs.foldlM f a).sent) : ∃ b, ∃ x ∈ xs, d ∈ (f b x).sent := by
  induction xs generalizing a with
  | nil => simp at h
  | cons x xs ih =>
      rw [List.foldlM_cons, Xmit.mem_sent_bind] at h
      rcases h with h | ⟨b, -, h⟩
      · exact ⟨a, x, List.mem_cons_self .., h⟩
      · obtain ⟨b, y, hy, h⟩ := ih h
        exact ⟨b, y, List.mem_cons_of_mem _ hy, h⟩

/-- A symbol is no longer than the symbol size, whatever the file was. -/
theorem payload_le_of_mem_xmitBlock {host : Host M} {sizes : XmitSizes} {P : CodingParams}
    {fsiz file_nbr nExtra : ℤ} {m : XmitMem M} {cb : ℕ} {d : Datagram}
    (h : d ∈ (xmitBlock host sizes P fsiz file_nbr nExtra m cb).sent) :
    d.payload.length ≤ P.T.toNat := by
  rw [xmitBlock, Xmit.mem_sent_bind, Xmit.sent_lift] at h
  rcases h with h | ⟨⟨sz_read, m₀⟩, -, h⟩
  · cases h
  · rw [Xmit.mem_sent_bind] at h
    rcases h with h | ⟨_, -, h⟩
    · obtain ⟨j, -, hd⟩ := Xmit.of_mem_sent_forM h
      rw [xmitSymbol_sent hd]
      simpa using sourcePayloadSize_le P.T.toNat sz_read j
    · obtain ⟨m₁, j, h⟩ : ∃ m₁ j, d ∈ (xmitSymbol (xmitHeader routeEnsIdRepair P fsiz file_nbr j)
          P.T.toNat m₁ j P.T.toNat).sent := by
        split at h
        · split at h
          all_goals
            simp only [Xmit.mem_sent_bind, sent_repairPrograms, sent_repairSymbols, Xmit.pure,
              List.not_mem_nil, false_or, Xmit.sent_pure, and_false, exists_false, or_false] at h
            obtain ⟨_, -, m₂, -, h⟩ := h
            obtain ⟨j, -, hd⟩ := Xmit.of_mem_sent_forM h
            exact ⟨m₂.srcBlock, j, hd⟩
        · simp at h
      rw [xmitSymbol_sent h]
      simp

theorem payload_le_of_mem_xmitFile {host : Host M} {file : Option (List UInt8)}
    {file_nbr nExtra : ℤ} {d : Datagram} (h : d ∈ (xmitFile host file file_nbr nExtra).sent) :
    d.payload.length ≤ 1024 := by
  unfold xmitFile at h
  dsimp only at h
  split at h
  · simp at h
  · split at h
    · simp at h
    · rw [xmitContent, Xmit.mem_sent_bind, Xmit.sent_lift] at h
      rcases h with h | ⟨P, hP, h⟩
      · cases h
      · have hT : P.T = 1024 := by
          obtain ⟨-, -, h⟩ := bind_eq_ok.mp (Xmit.result_lift_eq_ok.mp hP)
          obtain ⟨-, -, h⟩ := bind_eq_ok.mp h
          obtain ⟨-, -, h⟩ := bind_eq_ok.mp h
          cases h
          rfl
        simp only [Xmit.mem_sent_bind, sent_xmitSizes, Xmit.sent_lift, List.not_mem_nil, false_or,
          Xmit.sent_pure, and_false, exists_false, or_false] at h
        obtain ⟨sizes, -, _, -, h⟩ := h
        obtain ⟨m, cb, -, hd⟩ := Xmit.of_mem_sent_foldlM h
        have hle := payload_le_of_mem_xmitBlock hd
        rwa [hT] at hle

/-! ## Runs of the sender -/

variable {host : Host M} {files : Str → Option (List UInt8)} {strtod : Str → ℚ}
  {mul : ℚ → ℚ → ℚ} {t : List SendEntry} {s s' : SendLoop} {i : SendInput} {es : List SendEvent}

/-- What is handed to `udp_sendmsg`. -/
def SendInput.udpCalls : SendInput → List (UdpCall Datagram)
  | .file _ calls => calls
  | .listed | .due _ | .idle _ | .console _ _ => []

/-- What is passed to `udp_sendmsg`, and at what speed. -/
def passed (t : List SendEntry) : List (Passed Datagram) :=
  t.flatMap fun x =>
    x.input.udpCalls.map fun c => ⟨x.before.console.settings.udp.P.throttle_speed, c⟩

/-- No command touches the burst. -/
theorem cliCommand_udp (line : Str) (s : Settings) :
    ∃ P, (cliCommand strtod line s).1.udp = { s.udp with P } := by
  unfold cliCommand
  split
  all_goals
    rw [execCliCommand_settings]
    exact ⟨_, rfl⟩

theorem cliCommands_udp {c c' : Console} {calls : List (List Read)} {cs : List Command}
    (h : cliCommands strtod c calls = some (c', cs)) :
    ∃ P, c'.settings.udp = { c.settings.udp with P } := by
  induction calls generalizing c cs with
  | nil => cases h
  | cons reads calls ih =>
      rw [cliCommands] at h
      split at h
      · cases h
      · rename_i call hcall
        split at h
        · rename_i dest hresult
          obtain ⟨P, hP⟩ := cliCommand_udp dest c.settings
          simp only at h
          split at h
          · split at h
            · cases h
              exact ⟨P, hP⟩
            · cases h
          · obtain ⟨⟨c₁, cs₁⟩, hrest, heq⟩ := Option.map_eq_some_iff.mp h
            cases heq
            obtain ⟨P', hP'⟩ := ih hrest
            exact ⟨P', by rw [hP', hP]⟩
        all_goals
          split at h
          · cases h
            exact ⟨_, rfl⟩
          · cases h

/-- The transmission of a file. -/
theorem Enveloped.transmits {l : List (Passed Datagram)} {net net' : UdpState}
    {e : InMemory.NextEnt} {calls : List (UdpCall Datagram)} {ues : List (UdpEvent Datagram)}
    (h : Enveloped 1036 l net)
    (hs : Transmits net (s.xmit host mul files e).sent calls net' ues) :
    Enveloped 1036 (l ++ calls.map fun c => ⟨net.U.P.throttle_speed, c⟩) net' := by
  obtain ⟨hcalls, u, hrun, rfl, -⟩ := hs
  rw [List.map_map]
  refine (h.calls hrun fun x hx => ?_).1
  have hmem : (x.input.msg_size, x.input.msg) ∈ (s.xmit host mul files e).sent.map
      fun d => (sizeofRouteHeader + d.payload.length, d) := by
    rw [← hcalls]
    exact List.mem_map_of_mem (List.mem_map_of_mem hx)
  obtain ⟨d, hd, heq⟩ := List.mem_map.mp hmem
  obtain ⟨hsize, -⟩ := Prod.mk.inj heq
  have hpayload := payload_le_of_mem_xmitFile hd
  rw [← hsize, sizeofRouteHeader]
  omega

theorem Enveloped.step (h : Enveloped 1036 (passed t) s.net)
    (hs : SendLoop.Step host files strtod mul s i s' es) :
    Enveloped 1036 (passed (t ++ [⟨s, i, es⟩])) s'.net := by
  have hsnoc : passed (t ++ [⟨s, i, es⟩]) = passed t ++
      i.udpCalls.map fun c => ⟨s.console.settings.udp.P.throttle_speed, c⟩ := by
    simp [passed]
  have hsame : i.udpCalls = [] → passed (t ++ [⟨s, i, es⟩]) = passed t := by
    intro hnone
    rw [hsnoc, hnone]
    exact List.append_nil _
  cases hs with
  | file _ _ _ _ hsends =>
      rw [hsnoc]
      exact h.transmits hsends
  | fails _ _ _ _ hsends =>
      rw [hsnoc]
      exact h.transmits hsends
  | listed =>
      rw [hsame rfl]
      exact h
  | due _ ht1 _ hclock =>
      rw [hsame rfl]
      exact h.pause rfl rfl (ht1.trans hclock)
  | @idle t1 clock _ ht1 hwait hclock =>
      rw [hsame rfl]
      have hvalid := getTimespecFromSeconds_valid (sub_nonneg.mpr (not_le.mp hwait).le)
      have hlater := (le_add_of_nonneg_right hvalid.seconds_nonneg).trans hclock
      exact h.pause rfl rfl (ht1.trans hlater)
  | @console t1 calls c cs clock _ ht1 _ hcalls hclock =>
      rw [hsame rfl]
      obtain ⟨P, hP⟩ := cliCommands_udp hcalls
      have hnbytes : c.settings.udp.throttle_nbytes = s.net.U.throttle_nbytes := by
        rw [hP]
        rfl
      have hstart : c.settings.udp.throttle_start = s.net.U.throttle_start := by
        rw [hP]
        rfl
      exact h.pause hnbytes hstart (ht1.trans hclock)

theorem SendLoop.enveloped_of_run {dirname text : Str} {fnam_buf : Buffer Char} {t0 : Timespec}
    {overhead clock : ℚ} {params : UdpParams} {uninit : Timespec}
    (h : Run (SendLoop.Step host files strtod mul)
      (.init dirname fnam_buf text t0 { overhead, udp := udpCreate params uninit } clock) t s) :
    Enveloped 1036 (passed t) s.net := by
  induction h with
  | nil => exact enveloped_create ..
  | snoc _ hstep ih => exact ih.step hstep

/-- At whatever speeds, and with whatever pauses: any messages passed to `udp_sendmsg` one after
another, while the throttle is on and set to at most `v` Mbit/s, keep to that speed from the
first to the last of them, but for 67606 bytes and a nanosecond for each 32768 bytes. -/
theorem traffic_envelope {dirname text : Str} {fnam_buf : Buffer Char} {t0 : Timespec}
    {overhead clock : ℚ} {params : UdpParams} {uninit : Timespec}
    (h : Run (SendLoop.Step host files strtod mul)
      (.init dirname fnam_buf text t0 { overhead, udp := udpCreate params uninit } clock) t s)
    {v : ℚ} {w : List (Passed Datagram)} (hw : w <:+: passed t) (hspeed : SpeedUpTo v w)
    {first last : Passed Datagram} (hfirst : w.head? = some first)
    (hlast : w.getLast? = some last) :
    ∃ n, 32768 * n ≤ passedBytes w ∧
      8 * (passedBytes w : ℚ) ≤
        v * 10 ^ 6 * (last.call.called - first.call.called + n * (1 / 10 ^ 9)) + 8 * 67606 := by
  have henv := SendLoop.enveloped_of_run h
  obtain ⟨n, hn, hkeeps⟩ := henv.keeps v w hw hspeed first last hfirst hlast
  refine ⟨n, hn, hkeeps.trans_eq ?_⟩
  norm_num

end

/-- The first of two files of one byte, at 8 Mbit/s. -/
theorem traffic_envelope_tiny :
    ∃ (t : List SendEntry) (s : SendLoop) (first last : Passed Datagram) (n : ℕ),
      Run (SendLoop.Step refusingHost (fun _ => some [7]) (fun _ => 0) (· * ·))
        (.init ['d'] tinyBuffer (sameNames 2) ⟨0, 0⟩
          { overhead := 0, udp := udpCreate ⟨8, 0⟩ ⟨0, 0⟩ } 0) t s ∧
      (passed t).head? = some first ∧ (passed t).getLast? = some last ∧
      8 * (passedBytes (passed t) : ℚ) ≤
        8 * 10 ^ 6 * (last.call.called - first.call.called + n * (1 / 10 ^ 9)) + 8 * 67606 := by
  obtain ⟨e, calls, net, es, hne, hstep⟩ := sameNames_sent (udpCreate ⟨8, 0⟩ ⟨0, 0⟩) 0
  have hrun := Run.single (hstep fun _ => 0)
  have hpassed : passed [⟨SendLoop.init ['d'] tinyBuffer (sameNames 2) ⟨0, 0⟩
      { overhead := 0, udp := udpCreate ⟨8, 0⟩ ⟨0, 0⟩ } 0, .file e calls, es.map SendEvent.udp⟩] =
        calls.map fun c => ⟨8, c⟩ := by simp [passed, SendInput.udpCalls, SendLoop.init, udpCreate]
  have hne' : calls.map (fun c => (⟨8, c⟩ : Passed Datagram)) ≠ [] := by simpa using hne
  have hspeed : SpeedUpTo 8 (calls.map fun c => (⟨8, c⟩ : Passed Datagram)) := by
    intro p hp
    obtain ⟨c, -, rfl⟩ := List.mem_map.mp hp
    norm_num
  obtain ⟨first, hfirst⟩ : ∃ first, (calls.map fun c => (⟨8, c⟩ : Passed Datagram)).head? =
      some first := ⟨_, List.head?_eq_some_head hne'⟩
  obtain ⟨last, hlast⟩ : ∃ last, (calls.map fun c => (⟨8, c⟩ : Passed Datagram)).getLast? =
      some last := ⟨_, List.getLast?_eq_some_getLast hne'⟩
  rw [← hpassed] at hspeed hfirst hlast
  obtain ⟨n, -, hbound⟩ := traffic_envelope hrun (List.infix_refl _) hspeed hfirst hlast
  exact ⟨_, _, first, last, n, hrun, hfirst, hlast, hbound⟩

end RqRoute
