import Mathlib.Algebra.BigOperators.Group.List.Basic
import RqRoute.Verification.M3u8.Entries
import RqRoute.Verification.Sender.Interactive

/-! # The schedule of the sender

The clock is read again after each wait. So no file is begun before all earlier ones have been
played for as long as the list says, and no wait lasts longer than until then. -/

namespace RqRoute

open Checked Memory Text Transition

variable {M : Type} {host : Host M} {files : Str → Option (List UInt8)} {strtod : Str → ℚ}
  {mul : ℚ → ℚ → ℚ} {t : List SendEntry} {s s' : SendLoop} {i : SendInput} {es : List SendEvent}

/-- The durations of the files sent. -/
def durations (strtod : Str → ℚ) (t : List SendEntry) : List ℚ :=
  t.filterMap fun x =>
    match x.input with
    | .file e _ => some (strtod e.duration)
    | .listed | .due _ | .idle _ | .console _ _ => none

/-- When the next file is due. -/
def dueTime (strtod : Str → ℚ) (t0 : Timespec) (t : List SendEntry) : ℚ :=
  t0.seconds + (durations strtod t).sum

structure SendLoop.Scheduled (strtod : Str → ℚ) (t0 : Timespec) (t : List SendEntry)
    (s : SendLoop) : Prop where
  t0_eq : s.t0 = t0
  accum : s.phase ≠ .stopped false → s.dur_accum = (durations strtod t).sum
  ready : s.phase = .ready → dueTime strtod t0 t ≤ s.clock

theorem dueTime_snoc (t0 : Timespec) (x : SendEntry) :
    dueTime strtod t0 (t ++ [x]) = dueTime strtod t0 t + (durations strtod [x]).sum := by
  simp only [dueTime, durations, List.filterMap_append, List.sum_append, add_assoc]

/-- The loop waits exactly while the next file is not due. -/
theorem SendLoop.Scheduled.due_iff {t0 : Timespec} (h : s.Scheduled strtod t0 t)
    (hphase : s.phase = .waiting) (t1 : Timespec) :
    getDeltaSeconds t1 s.t0 ≥ s.dur_accum ↔ dueTime strtod t0 t ≤ t1.seconds := by
  rw [getDeltaSeconds_eq, h.t0_eq, h.accum (by simp [hphase]), dueTime, ge_iff_le,
    le_sub_iff_add_le']

theorem SendLoop.Scheduled.step {t0 : Timespec} (h : s.Scheduled strtod t0 t)
    (hs : SendLoop.Step host files strtod mul s i s' es) :
    s'.Scheduled strtod t0 (t ++ [⟨s, i, es⟩]) := by
  have hsum : (durations strtod (t ++ [⟨s, i, es⟩])).sum =
      (durations strtod t).sum + (durations strtod [⟨s, i, es⟩]).sum := by
    rw [durations, List.filterMap_append, List.sum_append]
    rfl
  cases hs with
  | @file e calls net es hphase =>
      refine ⟨h.t0_eq, fun _ => ?_, nofun⟩
      have haccum := h.accum (by simp [hphase])
      rw [hsum]
      change s.dur_accum + strtod e.duration = _
      rw [haccum]
      simp [durations]
  | fails => exact ⟨h.t0_eq, fun hno => absurd rfl hno, nofun⟩
  | listed hphase =>
      refine ⟨h.t0_eq, fun _ => ?_, nofun⟩
      rw [hsum]
      exact (h.accum (by simp [hphase])).trans (add_zero _).symm
  | @due t1 clock hphase ht1 hdue hclock =>
      refine ⟨h.t0_eq, fun _ => ?_, fun _ => ?_⟩
      · rw [hsum]
        exact (h.accum (by simp [hphase])).trans (add_zero _).symm
      · rw [dueTime_snoc]
        refine (add_zero _).le.trans ?_
        exact ((h.due_iff hphase t1).mp hdue).trans hclock
  | idle hphase =>
      refine ⟨h.t0_eq, fun _ => ?_, fun hready => ?_⟩
      · rw [hsum]
        exact (h.accum (by simp [hphase])).trans (add_zero _).symm
      · exact absurd (hphase.symm.trans hready) (by decide)
  | @console t1 calls c cs clock hphase =>
      refine ⟨h.t0_eq, fun _ => ?_, fun hready => ?_⟩
      · rw [hsum]
        exact (h.accum (by simp [hphase])).trans (add_zero _).symm
      · by_cases hexit : c.reader.exited = true <;> simp [hexit] at hready

theorem SendLoop.scheduled_of_run {dirname text : Str} {fnam_buf : Buffer Char} {t0 : Timespec}
    {settings : Settings} {clock : ℚ}
    (hstart : t0.seconds ≤ clock)
    (h : Run (SendLoop.Step host files strtod mul)
      (.init dirname fnam_buf text t0 settings clock) t s) :
    s.Scheduled strtod t0 t := by
  induction h with
  | nil =>
      refine ⟨rfl, fun _ => rfl, fun _ => ?_⟩
      simpa [dueTime, durations, SendLoop.init] using hstart
  | snoc _ hstep ih => exact ih.step hstep

/-- A file is never begun before it is due, that is before the start and the durations of all
earlier files. Until then the loop waits, for a time that `pselect` accepts and that ends when
the file is due, but for less than a nanosecond; only then are commands obeyed. -/
theorem send_schedule {dirname text : Str} {fnam_buf : Buffer Char} {t0 : Timespec}
    {settings : Settings} {clock : ℚ}
    (hstart : t0.seconds ≤ clock)
    (h : Run (SendLoop.Step host files strtod mul)
      (.init dirname fnam_buf text t0 settings clock) t s)
    (hs : SendLoop.Step host files strtod mul s i s' es) :
    (∀ e calls, i = .file e calls → dueTime strtod t0 t ≤ s.clock) ∧
      (∀ t1, i = .due t1 → dueTime strtod t0 t ≤ t1.seconds) ∧
      (∀ t1 calls, i = .console t1 calls → t1.seconds < dueTime strtod t0 t) ∧
      ∀ t1, i = .idle t1 → t1.seconds < dueTime strtod t0 t ∧ (s.waitTime t1).Valid ∧
        dueTime strtod t0 t - 1 / 10 ^ 9 < t1.seconds + (s.waitTime t1).seconds ∧
        t1.seconds + (s.waitTime t1).seconds ≤ dueTime strtod t0 t := by
  have hsched := SendLoop.scheduled_of_run hstart h
  refine ⟨?_, ?_, ?_, ?_⟩
  · rintro e calls rfl
    cases hs with
    | file hphase => exact hsched.ready hphase
    | fails hphase => exact hsched.ready hphase
  · rintro t1 rfl
    cases hs with
    | due hphase _ hdue => exact (hsched.due_iff hphase t1).mp hdue
  · rintro t1 calls rfl
    cases hs with
    | console hphase _ hwait => exact not_le.mp ((hsched.due_iff hphase t1).not.mp hwait)
  · rintro t1 rfl
    cases hs with
    | idle hphase _ hwait =>
        have hlt := not_le.mp ((hsched.due_iff hphase t1).not.mp hwait)
        have hleft : s.dur_accum - getDeltaSeconds t1 s.t0 =
            dueTime strtod t0 t - t1.seconds := by
          rw [getDeltaSeconds_eq, hsched.t0_eq, hsched.accum (by simp [hphase]), dueTime]
          ring
        have hpos : 0 ≤ dueTime strtod t0 t - t1.seconds := sub_nonneg.mpr hlt.le
        rw [SendLoop.waitTime, hleft]
        refine ⟨hlt, getTimespecFromSeconds_valid hpos, ?_, ?_⟩
        · linarith only [getTimespecFromSeconds_seconds hpos]
        · linarith only [getTimespecFromSeconds_seconds_le hpos]

/-- The first of two files has been sent, and there is a second to wait. -/
theorem send_schedule_two :
    ∃ (strtod : Str → ℚ) (t : List SendEntry) (s : SendLoop) (t1 : Timespec),
      Run (SendLoop.Step refusingHost (fun _ => some [7]) strtod (· * ·)) tinyLoop t s ∧
      t1.seconds < dueTime strtod ⟨0, 0⟩ t ∧ (s.waitTime t1).Valid ∧
        t1.seconds + (s.waitTime t1).seconds ≤ dueTime strtod ⟨0, 0⟩ t := by
  obtain ⟨e, calls, net, es, t1, ht1, hfile⟩ := tinyLoop_sent
  let strtod : Str → ℚ := fun _ => t1.seconds + 1
  have hzero : (⟨0, 0⟩ : Timespec).seconds = 0 := by simp [Timespec.seconds]
  have hnot : ¬getDeltaSeconds t1 ⟨0, 0⟩ ≥ 0 + (t1.seconds + 1) := by
    rw [getDeltaSeconds_eq, hzero]
    linarith only
  have hidle : SendLoop.Step refusingHost (fun _ => some [7]) strtod (· * ·)
      (tinyLoop.sentFile strtod e net) (.idle t1) _ [] := .idle rfl ht1 hnot le_rfl
  have hrun := Run.single (hfile strtod)
  obtain ⟨hlt, hvalid, -, hle⟩ := (send_schedule (by rw [hzero]) hrun hidle).2.2.2 t1 rfl
  exact ⟨strtod, _, _, t1, hrun, hlt, hvalid, hle⟩

/-! ## The times of a playlist -/

/-- The names that the sender reads off the pieces of a text, each with the number in the last
directive before it, `duration` being the number before the text. -/
def m3u8Timed (duration : Str) : List Str → List (Str × Str)
  | [] => []
  | p :: ps =>
    if extinf <+: p then
      match sscanfLg (p.drop extinf.length) with
      | none => []
      | some d => m3u8Timed d ps
    else if p.head? = some '#' then m3u8Timed duration ps
    else (duration, chop p) :: m3u8Timed duration ps

theorem m3u8Timed_cons (duration p : Str) (ps : List Str) :
    m3u8Timed duration (p :: ps) =
      match InMemory.parseExtinf duration p with
      | none => []
      | some d => if p.head? = some '#' then m3u8Timed d ps
          else (d, chop p) :: m3u8Timed d ps := by
  have htake : p.take extinf.length = extinf ↔ extinf <+: p := by
    rw [List.prefix_iff_eq_take, eq_comm]
  by_cases hx : extinf <+: p
  · have hhash : p.head? = some '#' := by
      obtain ⟨t, rfl⟩ := hx
      rfl
    cases hnum : sscanfLg (p.drop extinf.length) <;>
      simp [m3u8Timed, InMemory.parseExtinf, htake, hx, hhash, hnum]
  · simp [m3u8Timed, InMemory.parseExtinf, htake, hx]

/-- An entry that was found is the first one of the text. -/
theorem m3u8Timed_of_found {text duration : Str} {e : NextEnt} (hnul : '\x00' ∉ text)
    (h : m3u8GetNextEnt lenPbuf duration text = .ok e) (hfound : e.found = true) :
    m3u8Timed duration (pieces 39 text) =
        (e.duration, e.filename) :: m3u8Timed e.duration (pieces 39 e.rest) ∧
      '\x00' ∉ e.rest := by
  induction hn : text.length using Nat.strong_induction_on generalizing text duration with
  | _ n ih =>
      by_cases hne : text = []
      · subst hne
        rw [(reads_m3u8GetNextEnt lenPbuf).done rfl] at h
        cases h
        cases hfound
      · obtain ⟨p, rest, hget, hpieces, hp, hpnul, hrest, hlt⟩ := exists_fgets hnul hne
        rw [(reads_m3u8GetNextEnt lenPbuf).round hget, cstr_eq_self hpnul] at h
        rw [hpieces, m3u8Timed_cons]
        cases hparse : InMemory.parseExtinf duration p with
        | none =>
            rw [hparse] at h
            cases h
            cases hfound
        | some d =>
            rw [hparse] at h
            by_cases hhash : p.head? = some '#'
            · -- a comment leads to the next round
              simp only [if_pos hhash] at h ⊢
              exact ih _ (by omega) hrest h rfl
            · simp only [if_neg hhash, chopNewline_eq hpnul hp, ok_bind] at h ⊢
              cases h
              exact ⟨rfl, hrest⟩

/-- The paths of these names in a directory. -/
def timedPaths (dirname duration text : Str) : List (Str × Str) :=
  (m3u8Timed duration (pieces 39 text)).map fun f => (f.1, cstr dirname ++ '/' :: f.2)

/-- The path of the entry is what the buffer holds. -/
theorem timedPaths_of_found {dirname : Str} (hnul : '\x00' ∉ s.fpp)
    (hpath : InMemory.Path (cstr dirname) s.fnam_p s.fnam_buf) {e : InMemory.NextEnt}
    (hent : s.nextEnt = .ok e) (hfound : e.found = true) :
    timedPaths dirname s.d s.fpp =
        (e.duration, stringAt e.buf 0) :: timedPaths dirname e.duration e.rest ∧
      '\x00' ∉ e.rest ∧ InMemory.Path (cstr dirname) s.fnam_p e.buf := by
  obtain ⟨e', hent', hshows⟩ := InMemory.m3u8GetNextEnt_shows hent
  obtain ⟨hfirst, hrest⟩ := m3u8Timed_of_found hnul hent' (hshows.found.symm.trans hfound)
  have hpath' := hpath.keeps hshows.keeps
  rw [timedPaths, hfirst, List.map_cons, hpath'.stringAt_zero, hshows.filename hfound,
    hshows.duration, hshows.rest]
  exact ⟨rfl, hrest, hpath'⟩

/-- The files sent so far, with their durations. -/
def timedFiles (t : List SendEntry) : List (Str × Str) :=
  t.filterMap fun x =>
    match x.input with
    | .file e _ => some (e.duration, stringAt e.buf 0)
    | .listed | .due _ | .idle _ | .console _ _ => none

theorem durations_eq (t : List SendEntry) :
    durations strtod t = (timedFiles t).map fun f => strtod f.1 := by
  rw [durations, timedFiles, List.map_filterMap]
  refine List.filterMap_congr fun x _ => ?_
  cases x.input <;> rfl

/-- What has been sent and what is left to be read are what the text says. -/
structure SendLoop.ReadsOff (dirname text : Str) (t : List SendEntry) (s : SendLoop) : Prop where
  noNul : '\x00' ∉ s.fpp
  path : InMemory.Path (cstr dirname) s.fnam_p s.fnam_buf
  timed : (∀ ok, s.phase ≠ .stopped ok) →
    timedPaths dirname [] text = timedFiles t ++ timedPaths dirname s.d s.fpp

/-- While the sender waits, the list is left alone. -/
theorem SendLoop.ReadsOff.pause {dirname text : Str} (h : s.ReadsOff dirname text t)
    (hphase : s.phase = .waiting) (hnone : timedFiles [⟨s, i, es⟩] = [])
    (hbuf : s'.fnam_buf = s.fnam_buf) (hp : s'.fnam_p = s.fnam_p) (hfpp : s'.fpp = s.fpp)
    (hd : s'.d = s.d) : s'.ReadsOff dirname text (t ++ [⟨s, i, es⟩]) := by
  have hsame : timedFiles (t ++ [⟨s, i, es⟩]) = timedFiles t := by
    rw [timedFiles, List.filterMap_append]
    exact (congrArg _ hnone).trans (List.append_nil _)
  refine ⟨?_, ?_, fun _ => ?_⟩
  · rw [hfpp]
    exact h.noNul
  · rw [hbuf, hp]
    exact h.path
  · rw [hsame, hfpp, hd]
    exact h.timed (by simp [hphase])

theorem SendLoop.readsOff_of_run {fresh : ℕ → Char} {dirname text : Str} {fnam_buf : Buffer Char}
    {t0 : Timespec} {settings : Settings} {clock : ℚ}
    (hbuf : InMemory.directoryPath fresh dirname lenPbuf InMemory.listM3u8 = .ok fnam_buf)
    (hnul : '\x00' ∉ text)
    (h : Run (SendLoop.Step host files strtod mul)
      (.init dirname fnam_buf text t0 settings clock) t s) : s.ReadsOff dirname text t := by
  induction h with
  | nil =>
      obtain ⟨buf, hbuf', -, hpath⟩ := InMemory.exists_directoryPath fresh dirname lenPbuf
        InMemory.listM3u8 (by decide)
      obtain rfl : buf = fnam_buf := Except.ok.inj (hbuf'.symm.trans hbuf)
      exact ⟨hnul, hpath, fun _ => rfl⟩
  | @snoc t s s' i es _ hstep ih =>
      cases hstep with
      | @file e calls net es hphase hent hfound =>
          obtain ⟨hfirst, hrest, hpath⟩ := timedPaths_of_found ih.noNul ih.path hent hfound
          refine ⟨hrest, hpath, fun _ => ?_⟩
          rw [ih.timed (by simp [hphase]), hfirst, timedFiles, timedFiles, List.filterMap_append,
            List.append_assoc]
          rfl
      | fails hphase hent hfound =>
          obtain ⟨-, -, hpath⟩ := timedPaths_of_found ih.noNul ih.path hent hfound
          exact ⟨ih.noNul, hpath, fun hno => absurd rfl (hno false)⟩
      | listed hphase hent =>
          obtain ⟨_, -, hshows⟩ := InMemory.m3u8GetNextEnt_shows hent
          exact ⟨ih.noNul, ih.path.keeps hshows.keeps, fun hno => absurd rfl (hno true)⟩
      | due hphase | idle hphase | console hphase => exact ih.pause hphase rfl rfl rfl rfl rfl

/-- The files are sent in the order of the playlist, each from its path and under its own duration,
and none before the start and the durations that the playlist gives to all names above it. -/
theorem playlist_schedule {fresh : ℕ → Char} {dirname text : Str} {fnam_buf : Buffer Char}
    {t0 : Timespec} {settings : Settings} {clock : ℚ}
    (hbuf : InMemory.directoryPath fresh dirname lenPbuf InMemory.listM3u8 = .ok fnam_buf)
    (hnul : '\x00' ∉ text) (hstart : t0.seconds ≤ clock)
    (h : Run (SendLoop.Step host files strtod mul)
      (.init dirname fnam_buf text t0 settings clock) t s)
    {e : InMemory.NextEnt} {calls : List (UdpCall Datagram)}
    (hs : SendLoop.Step host files strtod mul s (.file e calls) s' es) :
    timedFiles t ++ [(e.duration, stringAt e.buf 0)] <+: timedPaths dirname [] text ∧
      t0.seconds + (((timedPaths dirname [] text).take (timedFiles t).length).map
        fun f => strtod f.1).sum ≤ s.clock := by
  have hoff := SendLoop.readsOff_of_run hbuf hnul h
  have hent : s.phase = .ready ∧ s.nextEnt = .ok e ∧ e.found = true := by
    cases hs with
    | file hphase hent hfound => exact ⟨hphase, hent, hfound⟩
    | fails hphase hent hfound => exact ⟨hphase, hent, hfound⟩
  obtain ⟨hphase, hent, hfound⟩ := hent
  have htimed := hoff.timed (by simp [hphase])
  have htake : (timedPaths dirname [] text).take (timedFiles t).length = timedFiles t := by
    rw [htimed, List.take_left]
  refine ⟨?_, ?_⟩
  · rw [htimed, (timedPaths_of_found hoff.noNul hoff.path hent hfound).1]
    exact ⟨_, by rw [List.append_assoc]; rfl⟩
  · rw [htake, ← durations_eq]
    exact (SendLoop.scheduled_of_run hstart h).ready hphase

/-- The first of two files may be sent at once. -/
theorem playlist_schedule_first :
    ∃ (e : InMemory.NextEnt) (calls : List (UdpCall Datagram)) (s : SendLoop)
      (es : List SendEvent),
      SendLoop.Step refusingHost (fun _ => some [7]) (fun _ => 1) (· * ·) tinyLoop
        (.file e calls) s es ∧
      [(e.duration, stringAt e.buf 0)] <+: timedPaths ['d'] [] (sameNames 2) ∧
      (⟨0, 0⟩ : Timespec).seconds + 0 ≤ tinyLoop.clock := by
  obtain ⟨e, calls, net, es, -, -, hfile⟩ := tinyLoop_sent
  have hnul : '\x00' ∉ sameNames 2 := by decide
  have hstart : (⟨0, 0⟩ : Timespec).seconds ≤ 0 := by simp [Timespec.seconds]
  have hfirst := playlist_schedule tinyBuffer_path hnul hstart .nil (hfile fun _ => 1)
  exact ⟨e, calls, _, _, hfile fun _ => 1, hfirst⟩

end RqRoute
