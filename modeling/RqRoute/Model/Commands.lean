import RqRoute.Model.Cli
import RqRoute.Model.M3u8
import RqRoute.Model.Udp

/-! # Commands

`exec_cli_command` and the loop of `cli_commands`: the settings that the user, or the GUI, can
change while the sender waits. The number that a text stands for is a parameter. -/

namespace RqRoute

open Text

def udpGetParams (sender : Udp) : UdpParams := sender.P

def udpSetParams (sender : Udp) (params : UdpParams) : Udp := { sender with P := params }

/-- What a command prints; `exit` prints nothing, it ends the process. -/
inductive Reply where
  | overhead (value : ℚ)
  | dropProb (drop_prob : ℚ)
  | throttleSpeed (throttle_speed : ℚ)
  | help
  | exit
  | unknown (cmd : Str)
deriving DecidableEq

/-- `*pOverhead` and `*pUdp`. -/
structure Settings where
  overhead : ℚ
  udp : Udp
deriving DecidableEq

def overheadName : Str := ['o', 'v', 'e', 'r', 'h', 'e', 'a', 'd']

def dropProbName : Str := ['d', 'r', 'o', 'p', '-', 'p', 'r', 'o', 'b']

def throttleSpeedName : Str :=
  ['t', 'h', 'r', 'o', 't', 't', 'l', 'e', '-', 's', 'p', 'e', 'e', 'd']

def helpName : Str := ['h', 'e', 'l', 'p']

def exitName : Str := ['e', 'x', 'i', 't']

/-- `args && sscanf(args, "%lg", ..) == 1`, with the number that was read. -/
def scanArg (strtod : Str → ℚ) (args : Option Str) : Option ℚ :=
  (args.bind sscanfLg).map strtod

def execCliCommand (strtod : Str → ℚ) (cmd : Str) (args : Option Str) (s : Settings) :
    Settings × Reply :=
  if cmd = overheadName then
    let overhead := (scanArg strtod args).getD s.overhead
    ({ s with overhead }, .overhead overhead)
  else if cmd = dropProbName then
    let up := udpGetParams s.udp
    match scanArg strtod args with
    | some drop_prob =>
      let up := { up with drop_prob }
      ({ s with udp := udpSetParams s.udp up }, .dropProb up.drop_prob)
    | none => (s, .dropProb up.drop_prob)
  else if cmd = throttleSpeedName then
    let up := udpGetParams s.udp
    match scanArg strtod args with
    | some throttle_speed =>
      let up := { up with throttle_speed }
      ({ s with udp := udpSetParams s.udp up }, .throttleSpeed up.throttle_speed)
    | none => (s, .throttleSpeed up.throttle_speed)
  else if cmd = helpName then (s, .help)
  else if cmd = exitName then (s, .exit)
  else (s, .unknown cmd)

/-- One line: the command is split from its parameters at the first blank. -/
def cliCommand (strtod : Str → ℚ) (buf : Str) (s : Settings) : Settings × Reply :=
  match strchr buf ' ' with
  | some p => execCliCommand strtod (buf.take p) (some (buf.drop (p + 1))) s
  | none => execCliCommand strtod buf none s

/-- The reader and what the commands may change. -/
structure Console where
  reader : LineReader
  settings : Settings
deriving DecidableEq

/-- A line, and what it was answered. -/
structure Command where
  line : Str
  reply : Reply
deriving DecidableEq

/-- `cli_commands`: the calls of `get_next_line`, each with the results of its reads, up to the
one that returns false, or to the end of the process. -/
def cliCommands (strtod : Str → ℚ) (c : Console) :
    List (List Read) → Option (Console × List Command)
  | [] => none
  | reads :: calls =>
    match getNextLine cliLineSize c.reader.buf 0 reads with
    | none => none
    | some call =>
      match call.result with
      | .line dest =>
        let r := cliCommand strtod dest c.settings
        let c : Console := {
          reader := { buf := call.buf, exited := decide (r.2 = .exit) }, settings := r.1 }
        if r.2 = .exit then if calls = [] then some (c, [⟨dest, r.2⟩]) else none
        else (cliCommands strtod c calls).map fun x => (x.1, ⟨dest, r.2⟩ :: x.2)
      | .none =>
        if calls = [] then some ({ c with reader := { buf := call.buf, exited := false } }, [])
        else none
      | .exit =>
        if calls = [] then some ({ c with reader := { buf := call.buf, exited := true } }, [])
        else none

end RqRoute
