import RqRoute.Model.SendLoop
import RqRoute.Verification.Numbering
import RqRoute.Verification.Sender.Throttle

/-! # What the sender sends

Whatever is typed while the sender waits, and whatever the clock shows, the datagrams of a run
are those of the loop without them, once the overhead of each file is known. -/

namespace RqRoute

open Checked Memory Text Transition

variable {M : Type} {host : Host M} {files : Str → Option (List UInt8)} {strtod : Str → ℚ}
  {mul : ℚ → ℚ → ℚ}

/-! ## The network -/

/-- The datagrams that leave the program. -/
def wire (es : List (UdpEvent Datagram)) : List Datagram :=
  es.filterMap fun
    | .sendto _ d => some d
    | .nanosleep _ => none

@[simp] theorem wire_append (es fs : List (UdpEvent Datagram)) :
    wire (es ++ fs) = wire es ++ wire fs := List.filterMap_append

/-- The throttle sends nothing. -/
theorem udpSendmsg_wire (U : Udp) (c : UdpCall Datagram) : wire (udpSendmsg U c).2 =
    if U.P.drop_prob = 0 ∨ c.random / (randMax + 1) ≥ U.P.drop_prob then [c.msg] else [] := by
  have hsleep : ∀ x, wire (sleepFrac x) = [] := fun _ => rfl
  have hslept : ∀ (p : Prop) [Decidable p] x, wire (if p then sleepFrac x else []) = [] := by
    intro p _ x
    split <;> rfl
  unfold udpSendmsg
  by_cases hsent : U.P.drop_prob = 0 ∨ c.random / (randMax + 1) ≥ U.P.drop_prob
  all_goals
    simp only [hsent, if_true, if_false]
    split
    · split
      · rw [wire_append, hslept, List.append_nil]
        rfl
      · rfl
    · rfl

/-- A call sends its message or drops it, and leaves the parameters alone. -/
theorem UdpStep.wire {s s' : UdpState} {c : UdpCall Datagram} {es : List (UdpEvent Datagram)}
    (h : UdpStep s c s' es) :
    s'.U.P = s.U.P ∧ wire es =
      if s.U.P.drop_prob = 0 ∨ c.random / (randMax + 1) ≥ s.U.P.drop_prob then [c.msg] else [] := by
  have hP := udpSendmsg_P s.U c
  have hwire := udpSendmsg_wire s.U c
  rw [h.result] at hP hwire
  exact ⟨hP, hwire⟩

/-- Of what is offered to the network, some is dropped, and nothing without a probability. -/
theorem Transmits.wire {net net' : UdpState} {ds : List Datagram} {calls : List (UdpCall Datagram)}
    {es : List (UdpEvent Datagram)} (h : Transmits net ds calls net' es) :
    calls.map UdpCall.msg = ds ∧ net'.U.P = net.U.P ∧ (wire es).Sublist ds ∧
      (net.U.P.drop_prob = 0 → wire es = ds) := by
  obtain ⟨hcalls, t, hrun, rfl, rfl⟩ := h
  have hds : (t.map Entry.input).map UdpCall.msg = ds := by
    have := congrArg (List.map Prod.snd) hcalls
    simpa [Function.comp_def] using this
  refine ⟨hds, ?_⟩
  clear hcalls
  induction hrun generalizing ds with
  | nil =>
      obtain rfl : [] = ds := by simpa using hds
      exact ⟨rfl, List.Sublist.refl _, fun _ => rfl⟩
  | @snoc t s s' c es hrun hstep ih =>
      obtain ⟨hP, hsub, hall⟩ := ih rfl
      obtain ⟨hP', hone⟩ := hstep.wire
      obtain rfl : (t.map Entry.input).map UdpCall.msg ++ [c.msg] = ds := by simpa using hds
      refine ⟨hP'.trans hP, ?_, ?_⟩
      · rw [events_append, events_singleton, wire_append, hone]
        refine hsub.append ?_
        split <;> simp
      · intro hzero
        rw [events_append, events_singleton, wire_append, hall hzero, hone, hP, if_pos (.inl hzero)]

/-! ## Runs of the sender -/

abbrev SendEntry := Entry SendLoop SendInput SendEvent

/-- What is handed to `udp_sendmsg`. -/
def SendInput.offered : SendInput → List Datagram
  | .file _ calls => calls.map UdpCall.msg
  | .listed | .due _ | .idle _ | .console _ _ => []

def offered (t : List SendEntry) : List Datagram := t.flatMap fun x => x.input.offered

/-- The numbers of repair symbols, by the overheads in force when the files were sent. -/
def extras (mul : ℚ → ℚ → ℚ) (files : Str → Option (List UInt8)) (t : List SendEntry) : List ℤ :=
  t.filterMap fun x =>
    match x.input with
    | .file e _ => some (x.before.nExtra mul files e)
    | .listed | .due _ | .idle _ | .console _ _ => none

/-- What goes out to the network. -/
def sentOut (es : List SendEvent) : List Datagram :=
  wire (es.filterMap fun
    | .udp e => some e
    | .command _ => none)

@[simp] theorem sentOut_append (es fs : List SendEvent) :
    sentOut (es ++ fs) = sentOut es ++ sentOut fs := by
  simp [sentOut, List.filterMap_append]

@[simp] theorem sentOut_udp (es : List (UdpEvent Datagram)) : sentOut (es.map .udp) = wire es := by
  simp [sentOut, List.filterMap_map]

@[simp] theorem sentOut_command (cs : List Command) : sentOut (cs.map .command) = [] := by
  simp [sentOut, List.filterMap_map, wire]

section
variable {t : List SendEntry} {s : SendLoop}

@[simp] theorem offered_snoc (x : SendEntry) :
    offered (t ++ [x]) = offered t ++ x.input.offered := by
  simp [offered]

/-- The transmission of what is left of the list, with the file numbered `k` as the next one. -/
def SendLoop.rest (s : SendLoop) (xmit : Str → ℤ → Xmit Unit) (k : ℤ) : Except Fault (Xmit Unit) :=
  InMemory.sendSegmentsFrom xmit s.fnam_p k s.d s.fpp s.fnam_buf

/-- What a run has sent is what the loop without commands, which sends `x`, has sent so far. -/
structure SendLoop.Follows (host : Host M) (mul : ℚ → ℚ → ℚ) (files : Str → Option (List UInt8))
    (nExtra : ℤ → ℤ) (x : Xmit Unit) (t : List SendEntry) (s : SendLoop) : Prop where
  nbr : s.phase = .ready → s.file_nbr = (extras mul files t).length
  next : s.phase = .waiting → s.file_nbr + 1 = (extras mul files t).length
  going : (∀ ok, s.phase ≠ .stopped ok) →
    ∃ y, s.rest (xmitNamed host files nExtra) (extras mul files t).length = .ok y ∧
      x.sent = offered t ++ y.sent ∧ x.result = y.result
  stopped : ∀ ok, s.phase = .stopped ok →
    x.sent = offered t ∧ (x.result = .ok () ↔ ok = true)

theorem SendLoop.Follows.offered_le {nExtra : ℤ → ℤ} {x : Xmit Unit}
    (h : s.Follows host mul files nExtra x t) : offered t <+: x.sent := by
  by_cases hstop : ∃ ok, s.phase = .stopped ok
  · obtain ⟨ok, hstop⟩ := hstop
    rw [(h.stopped ok hstop).1]
  · obtain ⟨y, -, hsent, -⟩ := h.going fun ok heq => hstop ⟨ok, heq⟩
    rw [hsent]
    exact List.prefix_append _ _

/-- An entry that is read is the next one of the loop. -/
theorem SendLoop.Follows.rest_cases {nExtra : ℤ → ℤ} {x : Xmit Unit}
    (h : s.Follows host mul files nExtra x t) (hphase : s.phase = .ready) {e : InMemory.NextEnt}
    (hent : s.nextEnt = .ok e) :
    ∃ y, InMemory.Sends (xmitNamed host files nExtra) s.fnam_p s.file_nbr s.fpp e y ∧
      x.sent = offered t ++ y.sent ∧ x.result = y.result := by
  obtain ⟨y, hrest, hsent, hresult⟩ := h.going (by simp [hphase])
  rw [← h.nbr hphase] at hrest
  obtain ⟨e', hent', hsends⟩ := InMemory.sendSegmentsFrom_cases hrest
  obtain rfl : e = e' := Except.ok.inj (hent.symm.trans hent')
  exact ⟨y, hsends, hsent, hresult⟩

/-- Its transmission is that of the run. -/
theorem SendLoop.xmit_eq {nExtra : ℤ → ℤ} {e : InMemory.NextEnt}
    (hextra : nExtra s.file_nbr = s.nExtra mul files e) :
    xmitNamed host files nExtra (stringAt e.buf 0) s.file_nbr = s.xmit host mul files e := by
  rw [xmitNamed, hextra, SendLoop.xmit]

theorem result_bind_of_ok {α β : Type} {x : Xmit α} {f : α → Xmit β} {a : α}
    (h : x.result = .ok a) : (x >>= f).result = (f a).result := by
  change (Xmit.bind x f).result = _
  rw [Xmit.bind, h]

/-- While the sender waits, nothing is sent and nothing is taken off the list. -/
theorem SendLoop.Follows.pause {nExtra : ℤ → ℤ} {x : Xmit Unit} {s' : SendLoop} {i : SendInput}
    {es : List SendEvent} (h : s.Follows host mul files nExtra x t) (hphase : s.phase = .waiting)
    (hoffered : i.offered = []) (hextra : extras mul files [⟨s, i, es⟩] = [])
    (hrest : ∀ xmit k, s'.rest xmit k = s.rest xmit k) (hgoing : ∀ ok, s'.phase ≠ .stopped ok)
    (hready : s'.phase = .ready → s'.file_nbr = toInt (s.file_nbr + 1))
    (hwaiting : s'.phase = .waiting → s'.file_nbr = s.file_nbr)
    (hcount : (extras mul files t).length < 2 ^ 31) :
    s'.Follows host mul files nExtra x (t ++ [⟨s, i, es⟩]) := by
  have hsame : extras mul files (t ++ [⟨s, i, es⟩]) = extras mul files t := by
    rw [extras, List.filterMap_append, ← extras, ← extras, hextra, List.append_nil]
  have hnext := h.next hphase
  refine ⟨fun hp => ?_, fun hp => ?_, fun _ => ?_, fun ok hp => absurd hp (hgoing ok)⟩
  · rw [hsame, hready hp, hnext]
    exact toInt_of_fits (by unfold FitsInt; omega)
  · rw [hsame, hwaiting hp, hnext]
  · have hbefore := h.going (by simp [hphase])
    rwa [hsame, offered_snoc, hoffered, List.append_nil, hrest]

/-- One step of the run is one step of the loop, or waiting. -/
theorem SendLoop.Follows.step {nExtra : ℤ → ℤ} {x : Xmit Unit} {s' : SendLoop} {i : SendInput}
    {es : List SendEvent} (h : s.Follows host mul files nExtra x t)
    (hs : SendLoop.Step host files strtod mul s i s' es)
    (hagree : ∀ n ∈ (extras mul files [⟨s, i, es⟩]).head?,
      nExtra (extras mul files t).length = n)
    (hcount : (extras mul files (t ++ [⟨s, i, es⟩])).length < 2 ^ 31) :
    s'.Follows host mul files nExtra x (t ++ [⟨s, i, es⟩]) := by
  have hextras : extras mul files (t ++ [⟨s, i, es⟩]) =
      extras mul files t ++ extras mul files [⟨s, i, es⟩] := List.filterMap_append
  have hbefore : (extras mul files t).length < 2 ^ 31 := by
    rw [hextras, List.length_append] at hcount
    omega
  cases hs with
  | @file e calls net es hphase hent hfound hint hsends hok =>
      obtain ⟨hoffered, -⟩ := hsends.wire
      have hlen : (extras mul files (t ++ [⟨s, .file e calls, es.map .udp⟩])).length =
          (extras mul files t).length + 1 := by rw [hextras, List.length_append]; rfl
      rw [hlen] at hcount
      have hnbr := h.nbr hphase
      have hxmit : xmitNamed host files nExtra (stringAt e.buf 0) s.file_nbr =
          s.xmit host mul files e := SendLoop.xmit_eq (by rw [hnbr]; exact hagree _ rfl)
      obtain ⟨y, hy, hsent, hresult⟩ := h.rest_cases hphase hent
      cases hy with
      | listed hend =>
          rw [hfound] at hend
          cases hend
      | failed _ hstop =>
          rw [hxmit, hok] at hstop
          cases hstop
      | @going next _ _ _ hnext =>
          rw [toInt_of_fits (by unfold FitsInt; omega), hnbr] at hnext
          rw [hxmit] at hsent hresult
          refine ⟨by simp, fun _ => ?_, fun _ => ⟨next, ?_, ?_, ?_⟩, by simp⟩
          · rw [hlen, Nat.cast_succ, ← hnbr]
            rfl
          · rw [hlen, Nat.cast_succ]
            exact hnext
          · rw [hsent, Xmit.sent_bind_of_ok hok, offered_snoc, SendInput.offered, hoffered,
              List.append_assoc]
          · rw [hresult, result_bind_of_ok hok]
  | @fails e calls net es hphase hent hfound hint hsends hfails =>
      obtain ⟨hoffered, -⟩ := hsends.wire
      have hxmit : xmitNamed host files nExtra (stringAt e.buf 0) s.file_nbr =
          s.xmit host mul files e := SendLoop.xmit_eq (by rw [h.nbr hphase]; exact hagree _ rfl)
      obtain ⟨y, hy, hsent, hresult⟩ := h.rest_cases hphase hent
      refine ⟨by simp, by simp, fun hno => absurd rfl (hno false), ?_⟩
      rintro ok heq
      obtain rfl : false = ok := by simpa using heq
      cases hy with
      | listed hend =>
          rw [hfound] at hend
          cases hend
      | failed _ hstop =>
          rw [hxmit] at hsent hresult hstop
          rw [hsent, hresult, hstop, offered_snoc, SendInput.offered, hoffered]
          simp
      | going _ _ hok =>
          rw [hxmit] at hok
          exact absurd hok hfails
  | @listed e hphase hent hend =>
      obtain ⟨y, hy, hsent, hresult⟩ := h.rest_cases hphase hent
      refine ⟨by simp, by simp, fun hno => absurd rfl (hno true), ?_⟩
      rintro ok heq
      obtain rfl : true = ok := by simpa using heq
      cases hy with
      | listed =>
          rw [hsent, hresult, offered_snoc]
          exact ⟨rfl, by simp [Xmit.result_pure]⟩
      | failed hfound | going hfound =>
          rw [hend] at hfound
          cases hfound
  | due hphase =>
      exact h.pause hphase rfl rfl (fun _ _ => rfl) (by simp) (fun _ => rfl) (by simp) hbefore
  | idle hphase =>
      refine h.pause hphase rfl rfl (fun _ _ => rfl) ?_ ?_ (fun _ => rfl) hbefore
      · simp [hphase]
      · intro hready
        exact absurd (hphase.symm.trans hready) (by decide)
  | @console t1 calls c cs clock hphase =>
      refine h.pause hphase rfl rfl (fun _ _ => rfl) ?_ ?_ (fun _ => rfl) hbefore
      all_goals
        by_cases hexit : c.reader.exited = true <;> simp [hexit]

/-- The overheads that a run has used so far are those of the whole run. -/
theorem SendLoop.follows_of_run {s₀ : SendLoop} (hready : s₀.phase = .ready)
    (hnbr : s₀.file_nbr = 0) (h : Run (SendLoop.Step host files strtod mul) s₀ t s)
    (hcount : (extras mul files t).length < 2 ^ 31) {nExtra : ℤ → ℤ}
    (hextra : ∀ (i : ℕ) n, (extras mul files t)[i]? = some n → nExtra i = n) {x : Xmit Unit}
    (hx : s₀.rest (xmitNamed host files nExtra) 0 = .ok x) :
    s.Follows host mul files nExtra x t := by
  induction h with
  | nil =>
      refine ⟨fun _ => hnbr, fun hno => ?_, fun _ => ⟨x, hx, rfl, rfl⟩, fun ok hno => ?_⟩
      · rw [hready] at hno
        cases hno
      · rw [hready] at hno
        cases hno
  | @snoc t s s' i es hrun hstep ih =>
      have hextras : extras mul files (t ++ [⟨s, i, es⟩]) =
          extras mul files t ++ extras mul files [⟨s, i, es⟩] := List.filterMap_append
      have hbefore := hcount
      rw [hextras, List.length_append] at hbefore
      have hfollows := ih (by omega) fun j n hj => hextra j n (by
        rw [hextras, List.getElem?_append_left (List.getElem?_eq_some_iff.mp hj).1, hj])
      refine hfollows.step hstep (fun n hn => hextra _ n ?_) hcount
      rw [hextras, List.getElem?_append_right le_rfl, Nat.sub_self, ← List.head?_eq_getElem?]
      exact hn

/-- The network gets a part of what is offered to it; all of it while nothing is to be dropped. -/
theorem sentOut_of_run {s₀ : SendLoop}
    (h : Run (SendLoop.Step host files strtod mul) s₀ t s) :
    (sentOut (events t)).Sublist (offered t) ∧
      ((∀ x ∈ t, x.before.console.settings.udp.P.drop_prob = 0) →
        sentOut (events t) = offered t) := by
  induction h with
  | nil => exact ⟨List.Sublist.refl _, fun _ => rfl⟩
  | @snoc t s s' i es hrun hstep ih =>
      have hone : (sentOut es).Sublist i.offered ∧
          (s.console.settings.udp.P.drop_prob = 0 → sentOut es = i.offered) := by
        cases hstep with
        | file _ _ _ _ hsends =>
            obtain ⟨hoffered, -, hsub, hall⟩ := hsends.wire
            rw [sentOut_udp, SendInput.offered, hoffered]
            exact ⟨hsub, hall⟩
        | fails _ _ _ _ hsends =>
            obtain ⟨hoffered, -, hsub, hall⟩ := hsends.wire
            rw [sentOut_udp, SendInput.offered, hoffered]
            exact ⟨hsub, hall⟩
        | console =>
            rw [sentOut_command]
            exact ⟨List.Sublist.refl _, fun _ => rfl⟩
        | listed => exact ⟨List.Sublist.refl _, fun _ => rfl⟩
        | due => exact ⟨List.Sublist.refl _, fun _ => rfl⟩
        | idle => exact ⟨List.Sublist.refl _, fun _ => rfl⟩
      rw [events_append, events_singleton, sentOut_append, offered_snoc]
      refine ⟨ih.1.append hone.1, fun hzero => ?_⟩
      rw [ih.2 fun x hx => hzero x (List.mem_append_left _ hx),
        hone.2 (hzero _ (List.mem_append_right _ (List.mem_singleton_self _)))]

/-- Whatever is typed, and whatever the clock shows: on a list whose pieces leave room for their
terminators, the sender hands to `udp_sendmsg` what the loop without waiting sends at the overheads
in force, and the whole of it when it is done. What goes out is a part of this in the same order,
and all of it while the drop probability is 0. -/
theorem interactive_transmission {fresh : ℕ → Char} {dirname text : Str} {fnam_buf : Buffer Char}
    {t0 : Timespec} {settings : Settings} {clock : ℚ}
    (hbuf : InMemory.directoryPath fresh dirname lenPbuf InMemory.listM3u8 = .ok fnam_buf)
    (hnul : '\x00' ∉ text) (hnarrow : InMemory.Narrow (pieces 39 text))
    (h : Run (SendLoop.Step host files strtod mul)
      (.init dirname fnam_buf text t0 settings clock) t s)
    (hcount : (extras mul files t).length < 2 ^ 31) {nExtra : ℤ → ℤ}
    (hextra : ∀ (i : ℕ) n, (extras mul files t)[i]? = some n → nExtra i = n) :
    ∃ x, InMemory.sendSegments fresh (xmitNamed host files nExtra) dirname (some text) = .ok x ∧
      offered t <+: x.sent ∧
      (∀ ok, s.phase = .stopped ok → offered t = x.sent ∧ (x.result = .ok () ↔ ok = true)) ∧
      (sentOut (events t)).Sublist (offered t) ∧
      ((∀ x ∈ t, x.before.console.settings.udp.P.drop_prob = 0) →
        sentOut (events t) = offered t) := by
  obtain ⟨x, hx⟩ :=
    InMemory.exists_sendSegments fresh (xmitNamed host files nExtra) dirname hnul hnarrow
  have hloop := hx
  rw [InMemory.sendSegments, hbuf, ok_bind] at hloop
  have hfollows := SendLoop.follows_of_run rfl rfl h hcount hextra hloop
  refine ⟨x, hx, hfollows.offered_le, fun ok hstop => ?_, sentOut_of_run h⟩
  obtain ⟨hsent, hresult⟩ := hfollows.stopped ok hstop
  exact ⟨hsent.symm, hresult⟩

/-! ## Runs without commands -/

/-- A time when all sleeps are over. -/
theorem exists_awake (es : List (UdpEvent Datagram)) (now : ℚ) :
    ∃ clock, now ≤ clock ∧ ∀ wait_dur, .nanosleep wait_dur ∈ es →
      now + wait_dur.seconds ≤ clock := by
  induction es with
  | nil => exact ⟨now, le_rfl, fun _ h => absurd h List.not_mem_nil⟩
  | cons e es ih =>
      obtain ⟨clock, hnow, hes⟩ := ih
      cases e with
      | sendto =>
          refine ⟨clock, hnow, fun wait_dur h => hes wait_dur ?_⟩
          simpa using h
      | nanosleep w =>
          refine ⟨max clock (now + w.seconds), le_max_of_le_left hnow, fun wait_dur h => ?_⟩
          rcases List.mem_cons.mp h with heq | h
          · cases heq
            exact le_max_right _ _
          · exact le_max_of_le_left (hes wait_dur h)

theorem exists_udpStep (net : UdpState) (d : Datagram) :
    ∃ c net' es, UdpStep net c net' es ∧
      (c.msg_size, c.msg) = (sizeofRouteHeader + d.payload.length, d) := by
  obtain ⟨start, -, hstart⟩ := exists_timespec_ge net.clock
  let c : UdpCall Datagram :=
    { msg_size := sizeofRouteHeader + d.payload.length, msg := d, random := 0
      called := net.clock, start, now := start }
  obtain ⟨clock, hclock, hslept⟩ := exists_awake (udpSendmsg net.U c).2 start.seconds
  exact ⟨c, ⟨(udpSendmsg net.U c).1, clock⟩, (udpSendmsg net.U c).2,
    ⟨rfl, le_rfl, hstart, le_rfl, hclock, fun wait_dur h _ => hslept wait_dur h⟩, rfl⟩

theorem exists_transmits (net : UdpState) (ds : List Datagram) :
    ∃ calls net' es, Transmits net ds calls net' es := by
  induction ds using List.reverseRecOn with
  | nil => exact ⟨[], net, [], rfl, [], .nil, rfl, rfl⟩
  | append_singleton ds d ih =>
      obtain ⟨calls, net₁, es, hcalls, t, hrun, rfl, rfl⟩ := ih
      obtain ⟨c, net', es', hstep, hc⟩ := exists_udpStep net₁ d
      refine ⟨t.map Entry.input ++ [c], net', events t ++ es', ?_, t ++ [⟨net₁, c, es'⟩],
        hrun.snoc hstep, by simp, by simp⟩
      rw [List.map_append, hcalls, List.map_append]
      simp [hc]

/-- What `send_segments` transmits when the overhead stays the same. -/
def sendAtOverhead (host : Host M) (mul : ℚ → ℚ → ℚ) (files : Str → Option (List UInt8))
    (overhead : ℚ) (filename : Str) (file_nbr : ℤ) : Xmit Unit :=
  xmitFile host (files filename) file_nbr (extraSymbols mul overhead (files filename))

/-- A file has been sent. -/
def SendLoop.sentFile (s : SendLoop) (strtod : Str → ℚ) (e : InMemory.NextEnt) (net : UdpState) :
    SendLoop :=
  { s.setNet net with
    fnam_buf := e.buf, fpp := e.rest, d := e.duration
    dur_accum := s.dur_accum + strtod e.duration, phase := .waiting }

/-- It is time for the next one. -/
def SendLoop.advance (s : SendLoop) (clock : ℚ) : SendLoop :=
  { s with phase := .ready, file_nbr := toInt (s.file_nbr + 1), clock }

/-- Nobody types anything, and every file is sent. -/
theorem exists_quiet_run (hready : s.phase = .ready)
    (hint : ∀ filename, FitsInt (extraSymbols mul s.console.settings.overhead (files filename)))
    {x : Xmit Unit}
    (hx : s.rest (sendAtOverhead host mul files s.console.settings.overhead) s.file_nbr = .ok x)
    (hok : x.result = .ok ()) :
    ∃ t s', Run (SendLoop.Step host files strtod mul) s t s' ∧ s'.phase = .stopped true ∧
      ∀ x ∈ t, x.before.console.settings.overhead = s.console.settings.overhead ∧
        x.before.console.settings.udp.P = s.console.settings.udp.P := by
  induction hn : s.fpp.length using Nat.strong_induction_on generalizing s x with
  | _ n ih =>
      obtain ⟨e, hent, hsends⟩ := InMemory.sendSegmentsFrom_cases hx
      cases hsends with
      | listed hend =>
          have hstep : SendLoop.Step host files strtod mul s .listed
            { s with fnam_buf := e.buf, phase := .stopped true } [] := .listed hready hent hend
          refine ⟨_, _, Run.single hstep, rfl, fun x hx => ?_⟩
          obtain rfl := List.mem_singleton.mp hx
          exact ⟨rfl, rfl⟩
      | failed _ hstop =>
          rw [hstop] at hok
          cases hok
      | going hfound hlt hxmit hnext =>
          obtain ⟨⟨⟩, -, hrest⟩ := Xmit.result_bind_eq_ok.mp hok
          obtain ⟨calls, net, es, hsends⟩ := exists_transmits s.net (s.xmit host mul files e).sent
          have hP : net.U.P = s.console.settings.udp.P := hsends.wire.2.1
          have hfile : SendLoop.Step host files strtod mul s (.file e calls)
              (s.sentFile strtod e net) (es.map .udp) :=
            .file hready hent hfound (hint _) hsends hxmit
          obtain ⟨t1, -, ht1⟩ := exists_timespec_ge
            (max net.clock (s.t0.seconds + (s.dur_accum + strtod e.duration)))
          obtain ⟨hclock, htime⟩ := max_le_iff.mp ht1
          have hdue : getDeltaSeconds t1 s.t0 ≥ s.dur_accum + strtod e.duration := by
            rw [getDeltaSeconds_eq]
            linarith only [htime]
          have hwait : SendLoop.Step host files strtod mul (s.sentFile strtod e net)
              (.due t1) ((s.sentFile strtod e net).advance t1.seconds) [] :=
            .due rfl hclock hdue le_rfl
          obtain ⟨t, s', hrun, hstop, hsame⟩ := ih _ (hn ▸ hlt)
            (s := (s.sentFile strtod e net).advance t1.seconds) rfl hint hnext hrest rfl
          refine ⟨_, s', ((Run.single hfile).snoc hwait).trans hrun, hstop, ?_⟩
          intro x hx
          simp only [List.mem_append, List.mem_singleton, or_assoc] at hx
          rcases hx with rfl | rfl | hx
          · exact ⟨rfl, rfl⟩
          · exact ⟨rfl, hP⟩
          · exact ⟨(hsame x hx).1, (hsame x hx).2.trans hP⟩

/-- There are no more files than a measure of the list allows that each entry lowers. -/
theorem extras_length_le_of_measure {P : Str → Prop} {m : Str → ℕ}
    (hm : ∀ {d fpp e}, P fpp → m3u8GetNextEnt lenPbuf d fpp = .ok e → e.found = true →
      P e.rest ∧ m e.rest < m fpp) {s₀ : SendLoop} (hP : P s₀.fpp)
    (h : Run (SendLoop.Step host files strtod mul) s₀ t s) :
    (extras mul files t).length ≤ m s₀.fpp := by
  suffices hleft : P s.fpp ∧ (extras mul files t).length + m s.fpp ≤ m s₀.fpp ∨
      (∃ ok, s.phase = .stopped ok) ∧ (extras mul files t).length ≤ m s₀.fpp by
    rcases hleft with ⟨-, hleft⟩ | ⟨-, hleft⟩ <;> omega
  induction h with
  | nil => exact .inl ⟨hP, by simp [extras]⟩
  | @snoc t s s' i es hrun hstep ih =>
      have hextras : extras mul files (t ++ [⟨s, i, es⟩]) =
          extras mul files t ++ extras mul files [⟨s, i, es⟩] := List.filterMap_append
      have hleft : (∀ ok, s.phase ≠ .stopped ok) →
          P s.fpp ∧ (extras mul files t).length + m s.fpp ≤ m s₀.fpp := by
        intro hgoing
        rcases ih with hleft | ⟨⟨ok, hstop⟩, -⟩
        · exact hleft
        · exact absurd hstop (hgoing ok)
      have hnext : ∀ {e : InMemory.NextEnt}, P s.fpp → s.nextEnt = .ok e → e.found = true →
          P e.rest ∧ m e.rest < m s.fpp := by
        intro e hlist hent hfound
        obtain ⟨e', hent', hshows⟩ := InMemory.m3u8GetNextEnt_shows hent
        rw [hshows.rest]
        exact hm hlist hent' (hshows.found.symm.trans hfound)
      rw [hextras, List.length_append]
      cases hstep with
      | @file e calls net es hphase hent hfound =>
          obtain ⟨hlist, hbefore⟩ := hleft (by simp [hphase])
          obtain ⟨hrest, hlt⟩ := hnext hlist hent hfound
          refine .inl ⟨hrest, ?_⟩
          change (extras mul files t).length + 1 + m e.rest ≤ _
          omega
      | @fails e calls net es hphase hent hfound =>
          obtain ⟨hlist, hbefore⟩ := hleft (by simp [hphase])
          obtain ⟨-, hlt⟩ := hnext hlist hent hfound
          refine .inr ⟨⟨false, rfl⟩, ?_⟩
          change (extras mul files t).length + 1 ≤ _
          omega
      | listed hphase => exact .inl (hleft (by simp [hphase]))
      | due hphase => exact .inl (hleft (by simp [hphase]))
      | idle hphase => exact .inl (hleft (by simp [hphase]))
      | console hphase => exact .inl (hleft (by simp [hphase]))

/-- Each file has a name on the list. -/
theorem extras_length_le {s₀ : SendLoop} (hlist : Playlist s₀.fpp)
    (h : Run (SendLoop.Step host files strtod mul) s₀ t s) :
    (extras mul files t).length ≤ (playlistNames s₀.fpp).length := by
  refine extras_length_le_of_measure (P := Playlist) (m := fun fpp => (playlistNames fpp).length)
    (fun {d fpp e} hlist hent hfound => ?_) hlist h
  obtain ⟨e', hent', ⟨hend, -⟩ | ⟨hnames, hrest⟩⟩ := hlist.m3u8GetNextEnt d
  all_goals
    rw [lenPbuf, hent'] at hent
    obtain rfl := Except.ok.inj hent
  · rw [hfound] at hend
    cases hend
  · refine ⟨hrest, ?_⟩
    simp only [hnames.names_eq, List.length_cons]
    omega

end

theorem extraSymbols_zero (hmul : ∀ a, mul a 0 = 0) (file : Option (List UInt8)) :
    extraSymbols mul 0 file = 0 := by
  unfold extraSymbols
  split <;> simp [hmul]

/-- The buffer of the directory `d`. -/
def tinyBuffer : Buffer Char :=
  (({ size := 41, cell := fun _ => ' ' } : Buffer Char).blit 0 ['d', '\x00'] |>.blit 1 ['/']).blit 2
    (InMemory.listM3u8 ++ ['\x00'])

theorem tinyBuffer_path :
    InMemory.directoryPath (fun _ => ' ') ['d'] lenPbuf InMemory.listM3u8 = .ok tinyBuffer := rfl

theorem tinyBuffer_size : tinyBuffer.size + 1 = 2 + lenPbuf := rfl

theorem narrow_sameNames_two : InMemory.Narrow (pieces 39 (sameNames 2)) :=
  InMemory.narrow_of_forall (by decide)

/-- Before two files of one byte, to be sent without repair symbols. -/
def tinyLoop : SendLoop :=
  .init ['d'] tinyBuffer (sameNames 2) ⟨0, 0⟩ { overhead := 0, udp := udpCreate ⟨0, 0⟩ ⟨0, 0⟩ } 0

theorem tinyLoop_ok (host : Host M) (filename : Str) (file_nbr : ℤ) :
    (sendAtOverhead host (· * ·) (fun _ => some [7]) 0 filename file_nbr).result =
      .ok () := by
  rw [sendAtOverhead, extraSymbols_zero mul_zero]
  exact xmitFile_without_repair host (by decide) _ le_rfl

/-- Without repair symbols the first of them can be sent, however the network is set up. -/
theorem sameNames_sent (udp : Udp) (clock : ℚ) : ∃ (e : InMemory.NextEnt)
    (calls : List (UdpCall Datagram)) (net : UdpState) (es : List (UdpEvent Datagram)),
      calls ≠ [] ∧ ∀ strtod, SendLoop.Step refusingHost (fun _ => some [7]) strtod (· * ·)
        (.init ['d'] tinyBuffer (sameNames 2) ⟨0, 0⟩ { overhead := 0, udp } clock) (.file e calls)
        (SendLoop.sentFile
          (.init ['d'] tinyBuffer (sameNames 2) ⟨0, 0⟩ { overhead := 0, udp } clock) strtod e net)
        (es.map .udp) := by
  obtain ⟨e, hent, -⟩ := InMemory.exists_m3u8GetNextEnt [] tinyBuffer_size
    (playlist_sameNames 2).toListing.noNul_text narrow_sameNames_two
  obtain ⟨e', hent', hshows⟩ := InMemory.m3u8GetNextEnt_shows hent
  obtain ⟨e₁, he₁, ⟨-, hnil⟩ | ⟨hnames, -⟩⟩ := (playlist_sameNames 2).m3u8GetNextEnt []
  · rw [playlistNames_sameNames] at hnil
    cases hnil
  · obtain rfl : e' = e₁ := Except.ok.inj (hent'.symm.trans he₁)
    obtain ⟨calls, net, es, hsends⟩ := exists_transmits { U := udp, clock }
      (SendLoop.xmit (.init ['d'] tinyBuffer (sameNames 2) ⟨0, 0⟩ { overhead := 0, udp } clock)
        refusingHost (· * ·) (fun _ => some [7]) e).sent
    refine ⟨e, calls, net, es, ?_, fun strtod =>
      .file rfl hent (hshows.found.trans hnames.found) ?_ hsends
        (tinyLoop_ok refusingHost (stringAt e.buf 0) 0)⟩
    · rintro rfl
      have hnone := List.map_eq_nil_iff.mp hsends.1.symm
      rw [SendLoop.xmit, SendLoop.nExtra] at hnone
      simp only [SendLoop.init, extraSymbols_zero mul_zero] at hnone
      have hsmall : SmallFile ([7] : List UInt8).length := by decide
      have hfirst := first_mem_sent refusingHost hsmall 0
      rw [hnone] at hfirst
      cases hfirst
    · rw [SendLoop.nExtra]
      simp only [SendLoop.init, extraSymbols_zero mul_zero]
      decide

/-- That is so before anything is set. -/
theorem tinyLoop_sent : ∃ (e : InMemory.NextEnt) (calls : List (UdpCall Datagram))
    (net : UdpState) (es : List (UdpEvent Datagram)) (t1 : Timespec), net.clock ≤ t1.seconds ∧
      ∀ strtod, SendLoop.Step refusingHost (fun _ => some [7]) strtod (· * ·) tinyLoop
        (.file e calls) (tinyLoop.sentFile strtod e net) (es.map .udp) := by
  obtain ⟨e, calls, net, es, -, hsent⟩ := sameNames_sent (udpCreate ⟨0, 0⟩ ⟨0, 0⟩) 0
  obtain ⟨t1, -, ht1⟩ := exists_timespec_ge net.clock
  exact ⟨e, calls, net, es, t1, ht1, hsent⟩

/-- A run that sends both, with nothing dropped. -/
theorem tinyLoop_run (host : Host M) : ∃ (t : List SendEntry) (s : SendLoop),
    Run (SendLoop.Step host (fun _ => some [7]) (fun _ => 0) (· * ·)) tinyLoop t s ∧
      s.phase = .stopped true ∧ sentOut (events t) = offered t := by
  obtain ⟨x, hx⟩ := InMemory.exists_sendSegments (fun _ => ' ')
    (sendAtOverhead host (· * ·) (fun _ => some [7]) 0) ['d']
    (playlist_sameNames 2).toListing.noNul_text narrow_sameNames_two
  have hok : x.result = .ok () := by
    rw [sendSegments_eq (playlist_sameNames 2) (by rw [playlistNames_sameNames]; decide) hx]
    exact Xmit.result_forM_eq_ok.mpr fun x _ => tinyLoop_ok host _ x.2
  rw [InMemory.sendSegments, tinyBuffer_path, ok_bind] at hx
  obtain ⟨t, s, hrun, hstop, hsame⟩ : ∃ t s,
      Run (SendLoop.Step host (fun _ => some [7]) (fun _ => 0) (· * ·)) tinyLoop t s ∧
        s.phase = .stopped true ∧ _ := exists_quiet_run rfl (fun _ => by
          rw [show tinyLoop.console.settings.overhead = 0 from rfl, extraSymbols_zero mul_zero]
          decide) hx hok
  refine ⟨t, s, hrun, hstop, (sentOut_of_run hrun).2 fun x hx => ?_⟩
  rw [(hsame x hx).2]
  rfl

theorem interactive_transmission_two :
    ∃ (t : List SendEntry) (s : SendLoop) (nExtra : ℤ → ℤ) (x : Xmit Unit),
      Run (SendLoop.Step refusingHost (fun _ => some [7]) (fun _ => 0) (· * ·)) tinyLoop t s ∧
      s.phase = .stopped true ∧
      InMemory.sendSegments (fun _ => ' ') (xmitNamed refusingHost (fun _ => some [7]) nExtra) ['d']
        (some (sameNames 2)) = .ok x ∧ offered t = x.sent := by
  obtain ⟨t, s, hrun, hstop, -⟩ := tinyLoop_run refusingHost
  have hcount := extras_length_le (playlist_sameNames 2) hrun
  let nExtra : ℤ → ℤ := fun k => (extras (· * ·) (fun _ => some [7]) t)[k.toNat]?.getD 0
  have hextra : ∀ (i : ℕ) n, (extras (· * ·) (fun _ => some [7]) t)[i]? = some n →
      nExtra i = n := fun i n hi => by simp [nExtra, hi]
  obtain ⟨x, hx, -, hstopped, -⟩ := interactive_transmission tinyBuffer_path
    (playlist_sameNames 2).toListing.noNul_text narrow_sameNames_two hrun
    (hcount.trans_lt (by decide)) hextra
  exact ⟨t, s, nExtra, x, hrun, hstop, hx, (hstopped true hstop).1⟩

end RqRoute
