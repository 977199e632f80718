import RqRoute.Verification.Sender.Commands
import RqRoute.Verification.Sender.Interactive

/-! # The settings in force

Three settings can be changed while the sender waits. Each of them is what the last line that
sets it says, and the lines are those of the text that was typed. -/

namespace RqRoute

open Memory Text Transition

variable {strtod : Str → ℚ}

/-! ## One line -/

/-- The number that a line sets `name` to. -/
def settingOf (strtod : Str → ℚ) (name line : Str) : Option ℚ :=
  if name ++ [' '] <+: line then (sscanfLg (line.drop (name.length + 1))).map strtod else none

/-- The last of them. -/
def lastSetting (strtod : Str → ℚ) (name : Str) (lines : List Str) : Option ℚ :=
  (lines.filterMap (settingOf strtod name)).getLast?

/-- The settings after some lines. -/
def Settings.after (s : Settings) (strtod : Str → ℚ) (lines : List Str) : Settings where
  overhead := (lastSetting strtod overheadName lines).getD s.overhead
  udp := { s.udp with
    P := {
      throttle_speed :=
        (lastSetting strtod throttleSpeedName lines).getD s.udp.P.throttle_speed
      drop_prob := (lastSetting strtod dropProbName lines).getD s.udp.P.drop_prob } }

theorem lastSetting_append (name : Str) (ls ls' : List Str) (x : ℚ) :
    (lastSetting strtod name (ls ++ ls')).getD x =
      (lastSetting strtod name ls').getD ((lastSetting strtod name ls).getD x) := by
  rw [lastSetting, List.filterMap_append, List.getLast?_append, lastSetting, lastSetting]
  cases (ls'.filterMap (settingOf strtod name)).getLast? <;> rfl

theorem lastSetting_singleton (name line : Str) :
    lastSetting strtod name [line] = settingOf strtod name line := by
  rw [lastSetting]
  cases h : settingOf strtod name line <;> simp [h]

theorem Settings.after_append (s : Settings) (ls ls' : List Str) :
    s.after strtod (ls ++ ls') = (s.after strtod ls).after strtod ls' := by
  simp only [Settings.after, lastSetting_append]

theorem takeWhile_blank {cmd : Str} (h : ' ' ∉ cmd) (args : Str) :
    (cmd ++ ' ' :: args).takeWhile (· ≠ ' ') = cmd := by
  have hall : ∀ c ∈ cmd, decide (c ≠ ' ') = true := by
    intro c hc
    rw [decide_eq_true_eq]
    rintro rfl
    exact h hc
  rw [List.takeWhile_append_of_pos hall, List.takeWhile_cons_of_neg (by simp), List.append_nil]

/-- A line whose first blank stands behind its command. -/
theorem settingOf_split {cmd args : Str} (hcmd : ' ' ∉ cmd) {name : Str} (hname : ' ' ∉ name) :
    settingOf strtod name (cmd ++ ' ' :: args) =
      if cmd = name then (sscanfLg args).map strtod else none := by
  have hiff : name ++ [' '] <+: cmd ++ ' ' :: args ↔ cmd = name := by
    constructor
    · rintro ⟨rest, hrest⟩
      have hsplit : name ++ ' ' :: rest = cmd ++ ' ' :: args := by simpa using hrest
      rw [← takeWhile_blank hcmd args, ← hsplit, takeWhile_blank hname]
    · rintro rfl
      exact ⟨args, by simp⟩
  rw [settingOf, if_congr hiff rfl rfl]
  by_cases heq : cmd = name
  · subst heq
    rw [if_pos rfl, if_pos rfl]
    have hdrop : (cmd ++ ' ' :: args).drop (cmd.length + 1) = args := by
      simp
    rw [hdrop]
  · rw [if_neg heq, if_neg heq]

theorem settingOf_of_not_mem {line : Str} (h : ' ' ∉ line) (name : Str) :
    settingOf strtod name line = none := by
  refine if_neg fun hprefix => h ?_
  exact hprefix.subset (by simp)

/-- What a command does to the settings. -/
theorem execCliCommand_settings (cmd : Str) (args : Option Str) (s : Settings) :
    (execCliCommand strtod cmd args s).1 =
      { overhead := ((if cmd = overheadName then scanArg strtod args else none).getD s.overhead)
        udp := { s.udp with
          P := {
            throttle_speed := (if cmd = throttleSpeedName then scanArg strtod args
              else none).getD s.udp.P.throttle_speed
            drop_prob := (if cmd = dropProbName then scanArg strtod args
              else none).getD s.udp.P.drop_prob } } } := by
  have hdrop : overheadName ≠ dropProbName := by decide
  have hspeed : overheadName ≠ throttleSpeedName := by decide
  have hboth : dropProbName ≠ throttleSpeedName := by decide
  unfold execCliCommand udpGetParams udpSetParams
  by_cases ho : cmd = overheadName
  · subst ho
    simp [hdrop, hspeed]
  · by_cases hd : cmd = dropProbName
    · subst hd
      cases harg : scanArg strtod args <;> simp [hdrop.symm, hboth]
    · by_cases ht : cmd = throttleSpeedName
      · subst ht
        cases harg : scanArg strtod args <;> simp [hspeed.symm, hboth.symm]
      · simp only [if_neg ho, if_neg hd, if_neg ht, Option.getD_none]
        split
        · rfl
        · split <;> rfl

/-- A line sets what it names. -/
theorem cliCommand_settings {line : Str} (hnul : '\x00' ∉ line) (s : Settings) :
    (cliCommand strtod line s).1 = s.after strtod [line] := by
  have hnames : ' ' ∉ overheadName ∧ ' ' ∉ dropProbName ∧ ' ' ∉ throttleSpeedName := by decide
  simp only [Settings.after, lastSetting_singleton]
  rw [cliCommand, strchr, cstr_eq_self hnul]
  by_cases hblank : ' ' ∈ line
  · obtain ⟨cmd, args, rfl, hcmd⟩ := List.eq_append_cons_of_mem hblank
    have hp : (cmd ++ ' ' :: args).idxOf ' ' = cmd.length := by
      rw [List.idxOf_append_of_notMem hcmd, List.idxOf_cons_self, Nat.add_zero]
    have hcut : (cmd ++ ' ' :: args).drop (cmd.length + 1) = args := by simp
    rw [if_pos hblank, hp]
    simp only [List.take_left, hcut, settingOf_split hcmd hnames.1, settingOf_split hcmd hnames.2.1,
      settingOf_split hcmd hnames.2.2, execCliCommand_settings, scanArg, Option.bind_some]
  · rw [if_neg hblank]
    simp only [settingOf_of_not_mem hblank, execCliCommand_settings, scanArg, Option.bind_none,
      Option.map_none, ite_self]

/-! ## One visit to the console -/

/-- A line that is returned is a string. -/
theorem nul_not_mem_of_line {dest_sz : ℕ} {buf : Str} {p_search : ℕ} {reads : List Read}
    {call : LineCall} {dest : Str} (h : getNextLine dest_sz buf p_search reads = some call)
    (hline : call.result = .line dest) : '\x00' ∉ dest := by
  induction reads generalizing buf p_search call with
  | nil =>
      unfold getNextLine at h
      split at h
      · cases h
        cases hline
        exact nul_not_mem_cstr _
      · cases h
  | cons r reads ih =>
      unfold getNextLine at h
      split at h
      · cases h
      · cases r with
        | again | error | eof =>
            simp only at h
            split at h
            · cases h
              cases hline
            · cases h
        | bytes chunk =>
            simp only at h
            split at h
            · obtain ⟨inner, hinner, rfl⟩ := Option.map_eq_some_iff.mp h
              split at hinner
              · exact ih hinner hline
              · exact ih hinner hline
            · cases h

/-- What `cli_commands` does, call by call. -/
structure Visits (strtod : Str → ℚ) (c : Console) (calls : List (List Read)) (c' : Console)
    (cs : List Command) (t : List (Entry LineReader (List Read) LineEvent)) (R : LineReader) :
    Prop where
  run : Run LineReader.Step c.reader t R
  inputs : t.map Entry.input = calls
  lines : returnedLines (events t) = cs.map Command.line
  buf : R.buf = c'.reader.buf
  going : c'.reader.exited = false → R = c'.reader ∧ ∀ x ∈ t.getLast?, returnedLines x.events = []
  settings : c'.settings = c.settings.after strtod (cs.map Command.line)

/-- A visit that ends with its first call. -/
theorem visits_single {c c' : Console} {reads : List Read} {call : LineCall} {cs : List Command}
    (hcall : getNextLine cliLineSize c.reader.buf 0 reads = some call)
    (hgoing : c.reader.exited = false) (hbuf : c'.reader.buf = call.buf)
    (hlines : call.result.lines = cs.map Command.line)
    (hnone : c'.reader.exited = false → call.result = .none)
    (hsettings : c'.settings = c.settings.after strtod (cs.map Command.line)) :
    ∃ t R, Visits strtod c [reads] c' cs t R := by
  have hstep : LineReader.Step c.reader reads
      { buf := call.buf, exited := decide (call.result = .exit) }
      (call.counts.map .filled ++ call.result.events) := ⟨hgoing, call, hcall, rfl, rfl⟩
  refine ⟨_, _, Run.single hstep, rfl, by simpa using hlines, hbuf.symm, fun hexit => ?_, hsettings⟩
  have hresult := hnone hexit
  have hreader : c'.reader = { buf := call.buf, exited := false } := by rw [← hbuf, ← hexit]
  refine ⟨by rw [hreader, hresult]; rfl, fun x hx => ?_⟩
  obtain rfl : _ = x := by simpa using hx
  simp [hresult, LineResult.lines]

theorem visits_of_cliCommands {c c' : Console} {calls : List (List Read)} {cs : List Command}
    (h : cliCommands strtod c calls = some (c', cs)) (hgoing : c.reader.exited = false) :
    ∃ t R, Visits strtod c calls c' cs t R := by
  induction calls generalizing c cs with
  | nil => cases h
  | cons reads calls ih =>
      rw [cliCommands] at h
      split at h
      · cases h
      · rename_i call hcall
        split at h
        · rename_i dest hresult
          have hset : (cliCommand strtod dest c.settings).1 = c.settings.after strtod [dest] :=
            cliCommand_settings (nul_not_mem_of_line hcall hresult) c.settings
          simp only at h
          split at h
          · rename_i hexit
            split at h
            · rename_i hnil
              cases h
              subst hnil
              refine visits_single hcall hgoing rfl (by simp [hresult, LineResult.lines]) ?_ hset
              intro hno
              simp [hexit] at hno
            · cases h
          · rename_i hexit
            obtain ⟨⟨c₁, cs₁⟩, hrest, heq⟩ := Option.map_eq_some_iff.mp h
            cases heq
            obtain ⟨t, R, hvisit⟩ := ih hrest (by simp [hexit])
            have hstep : LineReader.Step c.reader reads { buf := call.buf, exited := false }
                (call.counts.map .filled ++ [.line dest]) :=
              ⟨hgoing, call, hcall, by simp [hresult], by simp [hresult, LineResult.events]⟩
            have hrun := hvisit.run
            simp only [hexit, decide_false] at hrun
            have hne : t ≠ [] := by
              rintro rfl
              have hcalls := hvisit.inputs
              simp only [List.map_nil] at hcalls
              rw [← hcalls] at hrest
              cases hrest
            refine ⟨_, R, (Run.single hstep).trans hrun, by simp [hvisit.inputs], ?_, hvisit.buf,
              fun hno => ⟨(hvisit.going hno).1, ?_⟩, ?_⟩
            · rw [events_append, returnedLines_append, hvisit.lines]
              simp [returnedLines, LineEvent.line?]
            · rw [List.getLast?_append_of_ne_nil _ hne]
              exact (hvisit.going hno).2
            · rw [hvisit.settings]
              simp only [List.map_cons]
              rw [← List.singleton_append, Settings.after_append, ← hset]
        · rename_i hresult
          split at h
          · rename_i hnil
            cases h
            subst hnil
            refine visits_single hcall hgoing rfl (by simp [hresult, LineResult.lines])
              (fun _ => hresult) rfl
          · cases h
        · rename_i hresult
          split at h
          · rename_i hnil
            cases h
            subst hnil
            exact visits_single hcall hgoing rfl (by simp [hresult, LineResult.lines]) (by simp) rfl
          · cases h

/-! ## Runs of the sender -/

section
variable {M : Type} {host : Host M} {files : Str → Option (List UInt8)} {mul : ℚ → ℚ → ℚ}
  {t : List SendEntry} {s s' : SendLoop} {i : SendInput} {es : List SendEvent}

/-- The lines that were obeyed. -/
def commandLines (es : List SendEvent) : List Str :=
  es.filterMap fun
    | .command c => some c.line
    | .udp _ => none

@[simp] theorem commandLines_append (es fs : List SendEvent) :
    commandLines (es ++ fs) = commandLines es ++ commandLines fs := List.filterMap_append

@[simp] theorem commandLines_udp (es : List (UdpEvent Datagram)) :
    commandLines (es.map .udp) = [] := by
  simp [commandLines]

@[simp] theorem commandLines_command (cs : List Command) :
    commandLines (cs.map .command) = cs.map Command.line := by
  simp [commandLines]

def SendInput.reads : SendInput → List (List Read)
  | .console _ calls => calls
  | .file _ _ | .listed | .due _ | .idle _ => []

/-- The chunks in which the reader gets what is typed. -/
def typed (t : List SendEntry) : List Str :=
  readChunks (t.flatMap fun x => x.input.reads).flatten

/-- The settings are those of the lines obeyed, and the reader has been read line by line. -/
structure SendLoop.Obeys (strtod : Str → ℚ) (settings : Settings) (t : List SendEntry)
    (s : SendLoop) : Prop where
  overhead : s.console.settings.overhead =
    (settings.after strtod (commandLines (events t))).overhead
  params : s.console.settings.udp.P = (settings.after strtod (commandLines (events t))).udp.P
  reader : ∃ u R, Run LineReader.Step .init u R ∧
    u.map Entry.input = t.flatMap (fun x => x.input.reads) ∧
    returnedLines (events u) = commandLines (events t) ∧
    (s.phase ≠ .exited → R = s.console.reader ∧ R.exited = false ∧
      ∀ x ∈ u.getLast?, returnedLines x.events = [])

/-- A step without commands. -/
theorem SendLoop.Obeys.pause {settings : Settings} (h : s.Obeys strtod settings t)
    (hreads : i.reads = []) (hlines : commandLines es = [])
    (hoverhead : s'.console.settings.overhead = s.console.settings.overhead)
    (hparams : s'.console.settings.udp.P = s.console.settings.udp.P)
    (hreader : s'.console.reader = s.console.reader) (hphase : s.phase ≠ .exited) :
    s'.Obeys strtod settings (t ++ [⟨s, i, es⟩]) := by
  have hsame : commandLines (events (t ++ [⟨s, i, es⟩])) = commandLines (events t) := by
    rw [events_append, events_singleton, commandLines_append, hlines, List.append_nil]
  obtain ⟨u, R, hrun, hinputs, hreturned, hgoing⟩ := h.reader
  refine ⟨by rw [hsame, hoverhead, h.overhead], by rw [hsame, hparams, h.params],
    u, R, hrun, by simp [hinputs, hreads], by rw [hsame, hreturned], fun _ => ?_⟩
  rw [hreader]
  exact hgoing hphase

theorem SendLoop.Obeys.step {settings : Settings} (h : s.Obeys strtod settings t)
    (hs : SendLoop.Step host files strtod mul s i s' es) :
    s'.Obeys strtod settings (t ++ [⟨s, i, es⟩]) := by
  cases hs with
  | file hphase _ _ _ hsends =>
      exact h.pause rfl (commandLines_udp _) rfl hsends.wire.2.1 rfl (by simp [hphase])
  | fails hphase _ _ _ hsends =>
      exact h.pause rfl (commandLines_udp _) rfl hsends.wire.2.1 rfl (by simp [hphase])
  | listed hphase => exact h.pause rfl rfl rfl rfl rfl (by simp [hphase])
  | due hphase => exact h.pause rfl rfl rfl rfl rfl (by simp [hphase])
  | idle hphase => exact h.pause rfl rfl rfl rfl rfl (by simp [hphase])
  | @console t1 calls c cs clock hphase ht1 hwait hcalls hclock =>
      obtain ⟨u, R, hrun, hinputs, hreturned, hgoing⟩ := h.reader
      obtain ⟨rfl, hexited, hlast⟩ := hgoing (by simp [hphase])
      obtain ⟨v, R, hvisit⟩ := visits_of_cliCommands hcalls hexited
      have hlines : commandLines (events (t ++ [⟨s, .console t1 calls, cs.map .command⟩])) =
          commandLines (events t) ++ cs.map Command.line := by simp
      have hafter : ((settings.after strtod (commandLines (events t))).after strtod
          (cs.map Command.line)) = settings.after strtod
            (commandLines (events (t ++ [⟨s, .console t1 calls, cs.map .command⟩]))) := by
        rw [hlines, Settings.after_append]
      refine ⟨?_, ?_, u ++ v, R, hrun.trans hvisit.run, ?_, ?_, ?_⟩
      · rw [← hafter]
        change c.settings.overhead = _
        rw [hvisit.settings, Settings.after, Settings.after, h.overhead]
      · rw [← hafter]
        change c.settings.udp.P = _
        rw [hvisit.settings, Settings.after, Settings.after, h.params]
      · simp [hinputs, hvisit.inputs, SendInput.reads]
      · rw [hlines, events_append, returnedLines_append, hreturned, hvisit.lines]
      · intro hno
        have hexit : c.reader.exited = false := by
          by_contra hexit
          exact hno (if_pos (by simpa using hexit))
        obtain ⟨rfl, hnone⟩ := hvisit.going hexit
        refine ⟨rfl, hexit, fun x hx => ?_⟩
        rw [List.getLast?_append] at hx
        cases hv : v.getLast? with
        | none => exact hlast x (by simpa [hv] using hx)
        | some y => exact hnone x (by simpa [hv] using hx)

theorem SendLoop.obeys_of_run {dirname text : Str} {fnam_buf : Buffer Char} {t0 : Timespec}
    {settings : Settings} {clock : ℚ}
    (h : Run (SendLoop.Step host files strtod mul)
      (.init dirname fnam_buf text t0 settings clock) t s) :
    s.Obeys strtod settings t := by
  induction h with
  | nil => exact ⟨rfl, rfl, [], .init, .nil, rfl, rfl, fun _ => ⟨rfl, rfl, fun x hx => by cases hx⟩⟩
  | snoc _ hstep ih => exact ih.step hstep

/-- At any time, each of the three settings is what the last line that names it says, or what it
was at the start. While no read fills the buffer, these lines are the complete lines of what was
typed, in whatever chunks it came, and in however many visits to the console. -/
theorem settings_in_force {dirname text : Str} {fnam_buf : Buffer Char} {t0 : Timespec}
    {settings : Settings} {clock : ℚ}
    (h : Run (SendLoop.Step host files strtod mul)
      (.init dirname fnam_buf text t0 settings clock) t s) :
    s.console.settings.overhead = (lastSetting strtod overheadName
        (commandLines (events t))).getD settings.overhead ∧
      s.console.settings.udp.P.throttle_speed = (lastSetting strtod throttleSpeedName
        (commandLines (events t))).getD settings.udp.P.throttle_speed ∧
      s.console.settings.udp.P.drop_prob = (lastSetting strtod dropProbName
        (commandLines (events t))).getD settings.udp.P.drop_prob ∧
      (s.phase ≠ .exited → '\x00' ∉ (typed t).flatten → NeverFills [] (typed t) →
        commandLines (events t) = (endedLines (typed t).flatten).map (List.take 79)) := by
  have hobeys := SendLoop.obeys_of_run h
  refine ⟨hobeys.overhead, congrArg UdpParams.throttle_speed hobeys.params,
    congrArg UdpParams.drop_prob hobeys.params, fun hphase hnul hfill => ?_⟩
  obtain ⟨u, R, hrun, hinputs, hreturned, hgoing⟩ := hobeys.reader
  have htyped : inputChunks u = typed t := by
    rw [typed, ← hinputs]
    simp only [inputChunks, readChunks, List.filterMap_flatten, List.map_map, List.flatMap_def]
    rfl
  rw [← hreturned, ← htyped]
  rw [← htyped] at hnul hfill
  exact (delivers_of_neverFills hrun hnul hfill).1.all_of_none (hgoing hphase).2.2

end

/-- `overhead 2`, typed in two chunks. -/
def overheadReads : List (List Read) :=
  [[.bytes ['o', 'v', 'e', 'r'], .bytes ['h', 'e', 'a', 'd', ' ', '2', '\n']], [.again]]

theorem cliCommands_overheadReads (strtod : Str → ℚ) (settings : Settings) :
    cliCommands strtod { reader := .init, settings } overheadReads =
      some ({ reader := .init, settings := { settings with overhead := strtod ['2'] } },
        [⟨overheadName ++ [' ', '2'], .overhead (strtod ['2'])⟩]) := by
  have hline : getNextLine cliLineSize [] 0
      [.bytes ['o', 'v', 'e', 'r'], .bytes ['h', 'e', 'a', 'd', ' ', '2', '\n']] =
        some { result := .line (overheadName ++ [' ', '2']), buf := [], counts := [4, 11] } := rfl
  have hagain : getNextLine cliLineSize [] 0 [.again] =
      some { result := .none, buf := [], counts := [] } := rfl
  have hset : cliCommand strtod (overheadName ++ [' ', '2']) settings =
      ({ settings with overhead := strtod ['2'] }, .overhead (strtod ['2'])) := rfl
  simp [overheadReads, cliCommands, LineReader.init, hline, hagain, hset]

/-- It is obeyed after the first file. -/
theorem settings_in_force_typed :
    ∃ (strtod : Str → ℚ) (t : List SendEntry) (s : SendLoop),
      Run (SendLoop.Step refusingHost (fun _ => some [7]) strtod (· * ·)) tinyLoop t s ∧
      typed t = readChunks overheadReads.flatten ∧
      s.console.settings.overhead = strtod ['2'] := by
  obtain ⟨e, calls, net, es, t1, ht1, hfile⟩ := tinyLoop_sent
  obtain ⟨strtod, hlong⟩ : ∃ strtod : Str → ℚ, ∀ d, strtod d = t1.seconds + 1 := ⟨_, fun _ => rfl⟩
  have hnot : ¬getDeltaSeconds t1 ⟨0, 0⟩ ≥ 0 + strtod e.duration := by
    rw [hlong, getDeltaSeconds_eq, show (⟨0, 0⟩ : Timespec).seconds = 0 by simp [Timespec.seconds]]
    linarith only
  have hcalls := cliCommands_overheadReads strtod (tinyLoop.sentFile strtod e net).console.settings
  obtain ⟨s, hvisit⟩ : ∃ s, SendLoop.Step refusingHost (fun _ => some [7]) strtod (· * ·)
      (tinyLoop.sentFile strtod e net) (.console t1 overheadReads) s
      (List.map SendEvent.command [⟨overheadName ++ [' ', '2'], .overhead (strtod ['2'])⟩]) :=
    ⟨_, .console rfl ht1 hnot hcalls le_rfl⟩
  have hrun := (Run.single (hfile strtod)).snoc hvisit
  have hset := (settings_in_force hrun).1
  rw [events_append, events_singleton, events_singleton, commandLines_append, commandLines_udp,
    commandLines_command] at hset
  refine ⟨strtod, _, s, hrun, ?_, hset⟩
  simp [typed, SendInput.reads]

end RqRoute
