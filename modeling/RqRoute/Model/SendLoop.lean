import RqRoute.Library.Transition
import RqRoute.Model.Commands
import RqRoute.Model.NameBuffer

/-! # The sender at work

`send_segments` with the clock, the network and the console: a file is transmitted through
`udp_sendmsg`, and until it is time for the next one, commands are obeyed. -/

namespace RqRoute

open Memory Text Transition

/-- `nExtra` of `xmit_file`, `mul` being the product of two doubles, with its rounding. It is not
computed when the file cannot be sent. -/
def extraSymbols (mul : ℚ → ℚ → ℚ) (overhead : ℚ) (file : Option (List UInt8)) : ℤ :=
  match paramDeriv (getFileSize file) with
  | .ok P => ⌈mul P.K_large overhead⌉
  | .error _ => 0

inductive SendPhase where
  /-- at the top of the loop -/
  | ready
  /-- a file has been sent -/
  | waiting
  /-- by `return`, or by a failed assertion -/
  | stopped (ok : Bool)
  | exited
deriving DecidableEq, Repr

/-- The variables of `send_segments`; `fnam_p` is an offset in `fnam_buf`, `fpp` is what has not
been read yet, and `d` the text of the last duration. -/
structure SendLoop where
  fnam_buf : Buffer Char
  fnam_p : ℕ
  fpp : Str
  d : Str
  t0 : Timespec
  dur_accum : ℚ
  file_nbr : ℤ
  phase : SendPhase
  console : Console
  clock : ℚ

/-- Before the loop; `fnam_buf` is the buffer that `list.m3u8` was opened from. -/
def SendLoop.init (dirname : Str) (fnam_buf : Buffer Char) (fpp : Str) (t0 : Timespec)
    (settings : Settings) (clock : ℚ) : SendLoop :=
  { fnam_buf, fnam_p := (cstr dirname).length + 1, fpp, d := [], t0, dur_accum := 0, file_nbr := 0
    phase := .ready, console := { reader := .init, settings }, clock }

/-- What a pass of the loop, or of the waiting within it, gets from outside. -/
inductive SendInput where
  | file (e : InMemory.NextEnt) (calls : List (UdpCall Datagram))
  /-- the list ends -/
  | listed
  /-- it is time for the next file -/
  | due (t1 : Timespec)
  /-- `pselect` times out -/
  | idle (t1 : Timespec)
  /-- there is something to read, or `pselect` fails -/
  | console (t1 : Timespec) (calls : List (List Read))

inductive SendEvent where
  | udp (e : UdpEvent Datagram)
  | command (c : Command)

variable {M : Type}

/-- The next entry of the list. -/
def SendLoop.nextEnt (s : SendLoop) : Except Fault InMemory.NextEnt :=
  InMemory.m3u8GetNextEnt lenPbuf s.fnam_p s.d s.fpp s.fnam_buf

/-- The number of repair symbols for the file whose path is in the buffer, at the overhead of the
moment. -/
def SendLoop.nExtra (s : SendLoop) (mul : ℚ → ℚ → ℚ) (files : Str → Option (List UInt8))
    (e : InMemory.NextEnt) : ℤ :=
  extraSymbols mul s.console.settings.overhead (files (stringAt e.buf 0))

/-- The transmission of this file. -/
def SendLoop.xmit (s : SendLoop) (host : Host M) (mul : ℚ → ℚ → ℚ)
    (files : Str → Option (List UInt8)) (e : InMemory.NextEnt) : Xmit Unit :=
  xmitFile host (files (stringAt e.buf 0)) s.file_nbr (s.nExtra mul files e)

/-- The datagrams go through `udp_sendmsg`, one by one. -/
def Transmits (net : UdpState) (ds : List Datagram) (calls : List (UdpCall Datagram))
    (net' : UdpState) (es : List (UdpEvent Datagram)) : Prop :=
  calls.map (fun c => (c.msg_size, c.msg)) =
      ds.map (fun d => (sizeofRouteHeader + d.payload.length, d)) ∧
    ∃ t, Run UdpStep net t net' ∧ t.map Entry.input = calls ∧ events t = es

def SendLoop.net (s : SendLoop) : UdpState := { U := s.console.settings.udp, clock := s.clock }

def SendLoop.setNet (s : SendLoop) (net : UdpState) : SendLoop :=
  { s with console.settings.udp := net.U, clock := net.clock }

/-- `wait_t`. -/
def SendLoop.waitTime (s : SendLoop) (t1 : Timespec) : Timespec :=
  getTimespecFromSeconds (s.dur_accum - getDeltaSeconds t1 s.t0)

/-- The steps, on a clock that never goes back. There is none where a store would leave the buffer,
an assertion of the reader fails, or the number of repair symbols is not an `int`. -/
inductive SendLoop.Step (host : Host M) (files : Str → Option (List UInt8)) (strtod : Str → ℚ)
    (mul : ℚ → ℚ → ℚ) : SendLoop → SendInput → SendLoop → List SendEvent → Prop
  | file {s : SendLoop} {e : InMemory.NextEnt} {calls : List (UdpCall Datagram)} {net : UdpState}
      {es : List (UdpEvent Datagram)} (hphase : s.phase = .ready) (hent : s.nextEnt = .ok e)
      (hfound : e.found = true) (hint : FitsInt (s.nExtra mul files e))
      (hsends : Transmits s.net (s.xmit host mul files e).sent calls net es)
      (hok : (s.xmit host mul files e).result = .ok ()) :
      Step host files strtod mul s (.file e calls)
        { s.setNet net with
          fnam_buf := e.buf, fpp := e.rest, d := e.duration
          dur_accum := s.dur_accum + strtod e.duration, phase := .waiting } (es.map .udp)
  | fails {s : SendLoop} {e : InMemory.NextEnt} {calls : List (UdpCall Datagram)} {net : UdpState}
      {es : List (UdpEvent Datagram)} (hphase : s.phase = .ready) (hent : s.nextEnt = .ok e)
      (hfound : e.found = true) (hint : FitsInt (s.nExtra mul files e))
      (hsends : Transmits s.net (s.xmit host mul files e).sent calls net es)
      (hfails : (s.xmit host mul files e).result ≠ .ok ()) :
      Step host files strtod mul s (.file e calls)
        { s.setNet net with fnam_buf := e.buf, phase := .stopped false } (es.map .udp)
  | listed {s : SendLoop} {e : InMemory.NextEnt} (hphase : s.phase = .ready)
      (hent : s.nextEnt = .ok e) (hend : e.found = false) :
      Step host files strtod mul s .listed
        { s with fnam_buf := e.buf, phase := .stopped true } []
  | due {s : SendLoop} {t1 : Timespec} {clock : ℚ} (hphase : s.phase = .waiting)
      (ht1 : s.clock ≤ t1.seconds) (hdue : getDeltaSeconds t1 s.t0 ≥ s.dur_accum)
      (hclock : t1.seconds ≤ clock) :
      Step host files strtod mul s (.due t1)
        { s with phase := .ready, file_nbr := toInt (s.file_nbr + 1), clock } []
  | idle {s : SendLoop} {t1 : Timespec} {clock : ℚ} (hphase : s.phase = .waiting)
      (ht1 : s.clock ≤ t1.seconds) (hwait : ¬getDeltaSeconds t1 s.t0 ≥ s.dur_accum)
      (hclock : t1.seconds + (s.waitTime t1).seconds ≤ clock) :
      Step host files strtod mul s (.idle t1) { s with clock } []
  | console {s : SendLoop} {t1 : Timespec} {calls : List (List Read)} {c : Console}
      {cs : List Command} {clock : ℚ} (hphase : s.phase = .waiting)
      (ht1 : s.clock ≤ t1.seconds) (hwait : ¬getDeltaSeconds t1 s.t0 ≥ s.dur_accum)
      (hcalls : cliCommands strtod s.console calls = some (c, cs)) (hclock : t1.seconds ≤ clock) :
      Step host files strtod mul s (.console t1 calls)
        { s with
          console := c, phase := if c.reader.exited then .exited else .waiting, clock }
        (cs.map .command)

end RqRoute
