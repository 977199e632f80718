import RqRoute.Verification.Codec.Repetition
import RqRoute.Verification.Receiver.Table
import RqRoute.Verification.Segstate.Lone

/-! # Segments do not disturb each other

The segments of a run share the ring, the work memory of the codec and the writer. Still
they are written one after the other in the order of their numbers, and each as a segment
of its own would be that saw nothing but its own datagrams. -/

namespace RqRoute

open Checked Memory Segstateset Transition

variable {M : Type}

/-- A step of the receiver in which opening and writing succeed. -/
def SuccessStep (L : SegmentList) (host : Host M) (R : Receiver M) (i : Input) (R' : Receiver M)
    (es : List Event) : Prop :=
  (i.opened ≠ none ∧ i.taken ≠ none) ∧ R.Step L host i R' es

theorem inv_of_success {L : SegmentList} {host : Host M} {ready_fd : ℤ} {R : Receiver M}
    {t : List (Entry (Receiver M) Input Event)}
    (h : Run (SuccessStep L host) (Receiver.init host ready_fd) t R) : R.Inv :=
  inv_of_run (h.mono fun _ _ _ _ hs => hs.2)

/-! ## The order of the output files -/

/-- What happens to the output files. -/
inductive Session where
  | begins (file_nbr : ℤ)
  | ends (file_nbr : ℤ)
deriving DecidableEq, Repr

def sessions (es : List Event) : List Session :=
  es.filterMap fun
    | .opened f _ => some (.begins f)
    | .retired f => some (.ends f)
    | _ => none

@[simp] theorem sessions_append (es es' : List Event) :
    sessions (es ++ es') = sessions es ++ sessions es' := List.filterMap_append

theorem ends_mem_sessions {f : ℤ} {es : List Event} : .ends f ∈ sessions es ↔ .retired f ∈ es := by
  rw [sessions, List.mem_filterMap]
  constructor
  · rintro ⟨e, he, hf⟩
    cases e <;> cases hf
    exact he
  · exact fun h => ⟨_, h, rfl⟩

/-- The first `n` files, each begun and ended before the next. -/
def closedSessions (n : ℕ) : List Session :=
  (List.range n).flatMap fun f : ℕ => [.begins f, .ends f]

theorem closedSessions_succ (n : ℕ) :
    closedSessions (n + 1) = closedSessions n ++ [.begins n, .ends n] := by
  simp [closedSessions, List.range_succ]

theorem mem_closedSessions {n : ℕ} {f : ℤ} (h : .ends f ∈ closedSessions n) : 0 ≤ f ∧ f < n := by
  obtain ⟨g, hg, hmem⟩ := List.mem_flatMap.mp h
  have hlt := List.mem_range.mp hg
  simp only [List.mem_cons, reduceCtorEq, Session.ends.injEq, List.not_mem_nil, or_false,
    false_or] at hmem
  omega

/-- The file that is open. -/
def Receiver.openSession (R : Receiver M) : List Session :=
  if R.out_fd = -1 then [] else [.begins R.SS.min_file_nbr]

theorem Receiver.Starts.sessions {host : Host M} {R R' : Receiver M} {opened : Option ℕ}
    {es : List Event} (h : R.Starts host opened es R') (hfd : R.out_fd = -1) :
    sessions es = R'.openSession := by
  cases h with
  | idle | refused =>
      rw [Receiver.openSession, if_pos hfd]
      rfl
  | @opens S fd =>
      have hopen : (fd : ℤ) ≠ -1 := by omega
      rw [Receiver.openSession, if_neg hopen]
      rfl

/-- What a pass does to the files goes on from those that are closed and the open one. -/
theorem Receiver.Inv.sessions_step {L : SegmentList} {host : Host M} {R R' : Receiver M}
    {i : Input} {es : List Event} (h : R.Inv) (hs : R.Step L host i R' es) :
    closedSessions R.SS.min_file_nbr.toNat ++ R.openSession ++ sessions es =
      closedSessions R'.SS.min_file_nbr.toNat ++ R'.openSession := by
  obtain ⟨hmay, -, hpass⟩ := step_iff.mp hs
  cases hpass with
  | recv _ _ hgets =>
      cases hgets with
      | outside | known => exact List.append_nil _
      | first =>
          rw [Receiver.openSession, Receiver.openSession, out_fd_enter, min_put, min_enter]
          exact List.append_nil _
      | newest _ _ _ _ _ hfd hstart =>
          have hmin := hstart.frame.1.trans (min_enter ..)
          rw [sessions_append, hstart.sessions ((out_fd_enter ..).trans hfd), min_put, hmin,
            Receiver.openSession, if_pos hfd, List.append_nil]
          exact congrArg _ (List.append_nil _)
  | write htask hwrites =>
      have hfd := nexttask_write htask
      cases hwrites with
      | more => exact List.append_nil _
      | last _ _ _ hstart =>
          have hnonneg := h.min_nonneg
          have hsucc : (R.SS.min_file_nbr + 1).toNat = R.SS.min_file_nbr.toNat + 1 := by omega
          have hcast : (R.SS.min_file_nbr.toNat : ℤ) = R.SS.min_file_nbr := by omega
          rw [hstart.frame.1]
          change _ = closedSessions (R.SS.min_file_nbr + 1).toNat ++ _
          rw [hsucc, closedSessions_succ, hcast, sessions_append, hstart.sessions rfl,
            Receiver.openSession, if_neg hfd]
          simp [sessions]
  | startWrite htask hstart =>
      have hfd := (nexttask_startWrite hmay htask).1
      rw [hstart.frame.1, hstart.sessions hfd, Receiver.openSession, if_pos hfd, List.append_nil]
  | signalReady => exact List.append_nil _

theorem sessions_of_run {L : SegmentList} {host : Host M} {ready_fd : ℤ} {R : Receiver M}
    {t : List (Entry (Receiver M) Input Event)}
    (h : Run (Receiver.Step L host) (Receiver.init host ready_fd) t R) :
    sessions (events t) = closedSessions R.SS.min_file_nbr.toNat ++ R.openSession := by
  induction h with
  | nil => rfl
  | snoc hrun hstep ih =>
      rw [events_append, events_singleton, sessions_append, ih]
      exact (inv_of_run hrun).sessions_step hstep

/-! ## The datagrams of a segment -/

/-- The datagram that a pass receives. -/
def Receiver.received (R : Receiver M) (i : Input) : Option Datagram :=
  match nexttask R i.sel, i.recv with
  | .ok (some .recv), .packet d => some (cutDatagram d)
  | _, _ => none

/-- The output of segment `f` has been prepared, and it is not freed yet. -/
def Receiver.Prepared (R : Receiver M) (f : ℤ) : Prop :=
  ∃ S ∈ R.SS.lookup f, S.mode = .writing

instance (R : Receiver M) (f : ℤ) : Decidable (R.Prepared f) :=
  inferInstanceAs (Decidable (∃ S ∈ R.SS.lookup f, S.mode = .writing))

/-- A datagram of segment `f`, while `f` is in the window and not yet prepared. -/
def Receiver.Admits (R : Receiver M) (f : ℤ) (d : Datagram) : Prop :=
  d.header.toi.toNat = f ∧ R.SS.InWindow f ∧ ¬R.Prepared f

instance (R : Receiver M) (f : ℤ) (d : Datagram) : Decidable (R.Admits f d) :=
  inferInstanceAs (Decidable (_ ∧ _ ∧ _))

/-- What a pass receives of segment `f`. -/
def Receiver.arrival (f : ℤ) (R : Receiver M) (i : Input) : List Datagram :=
  (R.received i).toList.filter fun d => R.Admits f d

/-- All of them, in order of arrival. -/
def arrivals (f : ℤ) (t : List (Entry (Receiver M) Input Event)) : List Datagram :=
  t.flatMap fun x => x.before.arrival f x.input

@[simp] theorem arrivals_append (f : ℤ) (t u : List (Entry (Receiver M) Input Event)) :
    arrivals f (t ++ u) = arrivals f t ++ arrivals f u := List.flatMap_append

@[simp] theorem arrivals_singleton (f : ℤ) (x : Entry (Receiver M) Input Event) :
    arrivals f [x] = x.before.arrival f x.input := by
  simp [arrivals]

theorem received_recv {R : Receiver M} {i : Input} {d : Datagram}
    (htask : nexttask R i.sel = .ok (some .recv)) (hpkt : i.recv = .packet d) :
    R.received i = some (cutDatagram d) := by
  rw [Receiver.received, htask, hpkt]

theorem arrival_of_not_recv {R : Receiver M} {i : Input} {task : Task} (f : ℤ)
    (htask : nexttask R i.sel = .ok (some task)) (hne : task ≠ .recv) : R.arrival f i = [] := by
  have hnone : R.received i = none := by
    rw [Receiver.received, htask]
    cases task <;> first | rfl | exact absurd rfl hne
  rw [Receiver.arrival, hnone]
  rfl

/-! ## The history of a segment -/

/-- What is known of a segment whose datagrams so far are `ds`, and of which `out` has been
written. -/
inductive History (host' : Host M) (SS : Segstateset) (f : ℤ) :
    List Datagram → List UInt8 → Prop
  | ahead (hle : SS.min_file_nbr ≤ f) (hnone : SS.lookup f = none) : History host' SS f [] []
  | gathered {S : Segstate} {file_len : ℕ} {ds : List Datagram} (hS : SS.lookup f = some S)
      (hmode : S.mode ≠ .writing) (hfed : S.Fed f file_len ds) : History host' SS f ds []
  | drained {S : Segstate} {file_len offs : ℕ} {ds : List Datagram} (hS : SS.lookup f = some S)
      (hwrites : S.Writes f file_len offs)
      (hlone : LoneOutput host' f ds (S.out_cb_buf.slice 0 file_len)) :
      History host' SS f ds (S.out_cb_buf.slice 0 offs)
  | retired {ds : List Datagram} {out : List UInt8} (hlt : f < SS.min_file_nbr)
      (hlone : LoneOutput host' f ds out) : History host' SS f ds out

namespace History

variable {host host' : Host M} {SS SS' : Segstateset} {f : ℤ} {ds : List Datagram}
  {out : List UInt8}

/-- Only the segment itself and its place below or above the window count. -/
theorem congr (h : History host' SS f ds out)
    (hmin : SS'.min_file_nbr ≤ f ↔ SS.min_file_nbr ≤ f) (hlook : SS'.lookup f = SS.lookup f) :
    History host' SS' f ds out := by
  cases h with
  | ahead hle hnone => exact .ahead (hmin.mpr hle) (hlook.trans hnone)
  | gathered hS hmode hfed => exact .gathered (hlook.trans hS) hmode hfed
  | drained hS hwrites hlone => exact .drained (hlook.trans hS) hwrites hlone
  | retired hlt hlone => exact .retired (by omega) hlone

/-- Another segment changes. -/
theorem put_of_ne (h : History host' SS f ds out) {g : ℤ} (hin : SS.InWindow g) (hne : f ≠ g)
    (S : Segstate) : History host' (SS.put g S) f ds out :=
  h.congr (by rw [min_put]) (lookup_put_of_ne hin S hne)

/-- Another segment enters the window, and may release this one. -/
theorem enter_of_ne {R : Receiver M} (h : History host' R.SS f ds out) {g : ℤ}
    (hin : R.SS.InWindow g) (hne : f ≠ g) (file_len : ℕ) :
    History host' (R.enter host g file_len).SS f ds out := by
  have hmin := min_enter host R g file_len
  have hlook := lookup_enter host hin file_len f
  rw [if_neg hne] at hlook
  by_cases hgt : g > R.recv_file_nbr
  · rw [if_pos hgt] at hlook
    cases h with
    | ahead hle hnone => exact .ahead (hmin ▸ hle) (by rw [hlook, hnone]; rfl)
    | @gathered S _ _ hS hmode hfed =>
        rw [hS, Option.map_some] at hlook
        unfold markReady at hlook
        split at hlook
        · exact .gathered hlook (by simp [segstateReadyForWrite]) hfed.readyForWrite
        · exact .gathered hlook hmode hfed
    | drained hS hwrites hlone =>
        rw [hS, Option.map_some, Receiver.Inv.markReady_of_writing hwrites.mode_eq] at hlook
        exact .drained hlook hwrites hlone
    | retired hlt hlone => exact .retired (hmin.symm ▸ hlt) hlone
  · rw [if_neg hgt] at hlook
    exact h.congr (by rw [hmin]) hlook

/-- Starting to write prepares the segment, or leaves it as it is. -/
theorem starts (codec : StaleFree host.toRqApi) (hsame : host'.toRqApi = host.toRqApi)
    {R R' : Receiver M} {opened : Option ℕ} {es : List Event} (h : History host' R.SS f ds out)
    (hs : R.Starts host opened es R') : History host' R'.SS f ds out := by
  cases hs with
  | idle | refused => exact h
  | @opens S fd m hS hready _ hprep =>
      by_cases hf : f = R.SS.min_file_nbr
      · subst hf
        have hnew := lookup_put_self R.SS.inWindow_min m.S
        cases h with
        | ahead _ hnone => cases hS.symm.trans hnone
        | gathered hS' _ hfed =>
            obtain rfl := Option.some.inj (hS.symm.trans hS')
            obtain ⟨hwrites, hlone⟩ := hfed.prepareOutput codec hsame hprep
            rw [← m.S.out_cb_buf.slice_zero 0]
            exact .drained hnew hwrites hlone
        | drained hS' hwrites =>
            obtain rfl := Option.some.inj (hS.symm.trans hS')
            cases hready.symm.trans hwrites.mode_eq
        | retired hlt => exact absurd hlt (Int.lt_irrefl _)
      · exact h.put_of_ne R.SS.inWindow_min hf m.S

/-- A segment gets a datagram. -/
theorem addPacket (h : History host' SS f ds out) {S S' : Segstate} {d : Datagram}
    (hS : SS.lookup f = some S) (hadd : segstateAddPacket S d.header d.payload = .ok S') :
    History host' (SS.put f S') f (ds ++ [d]) out := by
  have hin := lookup_inWindow hS
  obtain ⟨-, -, hmode, cbs, hcbs⟩ := segstateAddPacket_eq_ok hadd
  cases h with
  | ahead _ hnone => cases hS.symm.trans hnone
  | gathered hS' _ hfed =>
      obtain rfl := Option.some.inj (hS.symm.trans hS')
      exact .gathered (lookup_put_self hin S') (by rw [hcbs]; simp [hmode]) (hfed.addPacket hadd)
  | drained hS' hwrites =>
      obtain rfl := Option.some.inj (hS.symm.trans hS')
      cases hmode.symm.trans hwrites.mode_eq
  | retired hlt =>
      rw [inWindow_iff] at hin
      omega

/-- The first datagram of a segment. -/
theorem firstPacket (h : History host' SS f ds out) (hnone : SS.lookup f = none)
    (hin : SS.InWindow f) {d : Datagram} {S : Segstate}
    (hsmall : SmallFile d.header.tos.toNat)
    (hadd : segstateAddPacket (initialSegment host f d.header.tos.toNat) d.header d.payload =
      .ok S) (hin' : SS'.InWindow f) :
    History host' (SS'.put f S) f (ds ++ [d]) out := by
  obtain ⟨-, -, -, cbs, hcbs⟩ := segstateAddPacket_eq_ok hadd
  cases h with
  | ahead =>
      exact .gathered (lookup_put_self hin' S) (by rw [hcbs]; simp [initialSegment])
        (fed_singleton hsmall hadd)
  | gathered hS | drained hS => cases hS.symm.trans hnone
  | retired hlt =>
      rw [inWindow_iff] at hin
      omega

/-- A write goes on with the first segment, and the last one completes it. -/
theorem writes_min {R R' : Receiver M} {k : ℕ} {opened : Option ℕ} {es : List Event}
    (hinv : R.Inv) (hfd : R.out_fd ≠ -1) (h : History host' R.SS R.SS.min_file_nbr ds out)
    (hw : R.Writes host (some k) opened es R') :
    History host' R'.SS R.SS.min_file_nbr ds (out ++ bytesWritten R.SS.min_file_nbr es) := by
  obtain ⟨S, hS, hd⟩ := hinv.drains hfd
  have hopen : S.out_fd ≠ -1 := by
    rw [hd.out_fd_eq]
    exact hfd
  cases h with
  | ahead _ hnone => cases hS.symm.trans hnone
  | gathered hS' hmode =>
      obtain rfl := Option.some.inj (hS.symm.trans hS')
      exact absurd hd.mode_eq hmode
  | retired hlt => exact absurd hlt (Int.lt_irrefl _)
  | @drained _ file_len offs _ hS' hwrites hlone =>
      obtain rfl := Option.some.inj (hS.symm.trans hS')
      have hlt := hwrites.offs_lt
      have hmore := hwrites.writeMore_some hopen host R.codec_mem k
      have hout := (S.out_cb_buf.slice_append 0 offs (min k (file_len - offs))).symm
      rw [Nat.zero_add] at hout
      cases hw with
      | more hS' hwrite hgoes =>
          obtain rfl := Option.some.inj (hS.symm.trans hS')
          obtain rfl := Except.ok.inj (hmore.symm.trans hwrite)
          have hne : offs + min k (file_len - offs) ≠ file_len := by simpa using hgoes
          simp only [if_neg hne, (bytesWritten_wrote _ _ _).1, if_pos]
          rw [hout]
          exact .drained (S := S.advance (offs + min k (file_len - offs)))
            (lookup_put_self R.SS.inWindow_min _) (hwrites.advance (by omega)) hlone
      | last hS' hwrite hgoes hstart =>
          obtain rfl := Option.some.inj (hS.symm.trans hS')
          obtain rfl := Except.ok.inj (hmore.symm.trans hwrite)
          have hend : offs + min k (file_len - offs) = file_len := by simpa using hgoes
          have hretired : R.SS.min_file_nbr < R'.SS.min_file_nbr := by
            rw [hstart.frame.1]
            exact Int.lt_succ _
          refine .retired hretired ?_
          rw [bytesWritten_append, hstart.bytesWritten, List.append_nil]
          simp only [(bytesWritten_wrote _ _ _).2, if_pos]
          rw [hout, hend]
          exact hlone

/-- The other segments are not written, but the next one may be prepared. -/
theorem writes_of_ne (codec : StaleFree host.toRqApi) (hsame : host'.toRqApi = host.toRqApi)
    {R R' : Receiver M} {taken opened : Option ℕ} {es : List Event}
    (hne : f ≠ R.SS.min_file_nbr) (h : History host' R.SS f ds out)
    (hw : R.Writes host taken opened es R') :
    History host' R'.SS f ds (out ++ bytesWritten f es) := by
  cases hw with
  | more =>
      rw [(bytesWritten_wrote _ _ _).1, if_neg hne.symm, List.append_nil]
      exact h.put_of_ne R.SS.inWindow_min hne _
  | @last _ w _ _ _ _ _ hstart =>
      rw [bytesWritten_append, hstart.bytesWritten, (bytesWritten_wrote _ _ _).2,
        if_neg hne.symm, List.append_nil, List.append_nil]
      have hretired : History host' (R.retire w.mem).SS f ds out := by
        refine h.congr ?_ ?_
        · change R.SS.min_file_nbr + 1 ≤ f ↔ _
          omega
        · rw [Receiver.retire, lookup_incMinFileNbr, min_put, if_neg hne,
            lookup_put_of_ne R.SS.inWindow_min _ hne]
      exact hretired.starts codec hsame hstart

theorem writes (codec : StaleFree host.toRqApi) (hsame : host'.toRqApi = host.toRqApi)
    {R R' : Receiver M} {k : ℕ} {opened : Option ℕ} {es : List Event} (hinv : R.Inv)
    (hfd : R.out_fd ≠ -1) (h : History host' R.SS f ds out)
    (hw : R.Writes host (some k) opened es R') :
    History host' R'.SS f ds (out ++ bytesWritten f es) := by
  by_cases hf : f = R.SS.min_file_nbr
  · subst hf
    exact h.writes_min hinv hfd hw
  · exact h.writes_of_ne codec hsame hf hw

/-- A datagram makes a difference to its own segment only. -/
theorem gets (codec : StaleFree host.toRqApi) (hsame : host'.toRqApi = host.toRqApi)
    {R R' : Receiver M} {d : Datagram} {opened : Option ℕ} {es : List Event}
    (h : History host' R.SS f ds out) (hg : R.Gets host d opened es R') :
    History host' R'.SS f (ds ++ [d].filter fun d => R.Admits f d) out := by
  by_cases hf : (d.header.toi.toNat : ℤ) = f
  · subst hf
    have hadmits : R.SS.InWindow d.header.toi.toNat → ¬R.Prepared d.header.toi.toNat →
        [d].filter (fun e => R.Admits d.header.toi.toNat e) = [d] := fun hin hprep =>
      List.filter_eq_self.mpr fun e he => by
        rw [List.mem_singleton.mp he]
        exact decide_eq_true ⟨rfl, hin, hprep⟩
    cases hg with
    | outside hout =>
        have hnil : [d].filter (fun e => R.Admits d.header.toi.toNat e) = [] :=
          List.filter_eq_nil_iff.mpr fun e _ hadm => hout (of_decide_eq_true hadm).2.1
        rw [hnil, List.append_nil]
        exact h
    | known hS hadd =>
        have hprep : ¬R.Prepared d.header.toi.toNat := by
          rintro ⟨T, hT, hmode⟩
          obtain rfl := Option.some.inj (hS.symm.trans hT)
          cases (segstateAddPacket_eq_ok hadd).2.2.1.symm.trans hmode
        rw [hadmits (lookup_inWindow hS) hprep]
        exact h.addPacket hS hadd
    | first hin hnone hsmall _ hadd =>
        rw [hadmits hin (by simp [Receiver.Prepared, hnone])]
        exact h.firstPacket hnone hin hsmall hadd ((inWindow_enter ..).mpr hin)
    | newest hin hnone hsmall _ _ _ hstart hadd =>
        have hself := lookup_enter host hin d.header.tos.toNat d.header.toi.toNat
        rw [if_pos rfl] at hself
        rw [hadmits hin (by simp [Receiver.Prepared, hnone])]
        exact h.firstPacket hnone hin hsmall hadd
          (lookup_inWindow (hstart.lookup_receiving hself rfl).1)
  · have hnil : [d].filter (fun e => R.Admits f e) = [] :=
      List.filter_eq_nil_iff.mpr fun e he hadm => by
        rw [List.mem_singleton.mp he] at hadm
        exact hf (of_decide_eq_true hadm).1
    have hne : f ≠ d.header.toi.toNat := fun heq => hf heq.symm
    rw [hnil, List.append_nil]
    cases hg with
    | outside => exact h
    | known hS => exact h.put_of_ne (lookup_inWindow hS) hne _
    | first hin =>
        exact (h.enter_of_ne hin hne _).put_of_ne ((inWindow_enter ..).mpr hin) hne _
    | newest hin _ _ _ _ _ hstart =>
        have hself := lookup_enter host hin d.header.tos.toNat d.header.toi.toNat
        rw [if_pos rfl] at hself
        exact ((h.enter_of_ne hin hne _).starts codec hsame hstart).put_of_ne
          (lookup_inWindow (hstart.lookup_receiving hself rfl).1) hne _

/-- One pass goes on with the history of every segment. -/
theorem step {L : SegmentList} (codec : StaleFree host.toRqApi)
    (hsame : host'.toRqApi = host.toRqApi) {R R' : Receiver M} {i : Input} {es : List Event}
    (hinv : R.Inv) (h : History host' R.SS f ds out) (hs : SuccessStep L host R i R' es) :
    History host' R'.SS f (ds ++ R.arrival f i) (out ++ bytesWritten f es) := by
  obtain ⟨⟨-, htaken⟩, hs⟩ := hs
  obtain ⟨hmay, -, hpass⟩ := step_iff.mp hs
  cases hpass with
  | recv htask hpkt hgets =>
      rw [hgets.bytesWritten, List.append_nil, Receiver.arrival, received_recv htask hpkt]
      exact h.gets codec hsame hgets
  | write htask hwrites =>
      rw [arrival_of_not_recv f htask (by decide), List.append_nil]
      obtain ⟨k, hk⟩ := Option.ne_none_iff_exists'.mp htaken
      rw [hk] at hwrites
      exact h.writes codec hsame hinv (nexttask_write htask) hwrites
  | startWrite htask hstarts =>
      rw [arrival_of_not_recv f htask (by decide), List.append_nil, hstarts.bytesWritten,
        List.append_nil]
      exact starts (R := { R with write_ok := true }) codec hsame h hstarts
  | signalReady htask =>
      rw [arrival_of_not_recv f htask (by decide), List.append_nil]
      exact (List.append_nil out).symm ▸ h

/-- Below the window everything has been written. -/
theorem lone (h : History host' SS f ds out) (hlt : f < SS.min_file_nbr) :
    LoneOutput host' f ds out := by
  cases h with
  | ahead hle => omega
  | gathered hS | drained hS =>
      have hin := inWindow_iff.mp (lookup_inWindow hS)
      omega
  | retired _ hlone => exact hlone

end History

/-- The histories of all segments, at the end of a run. -/
theorem history_of_run {host host' : Host M} (codec : StaleFree host.toRqApi)
    (hsame : host'.toRqApi = host.toRqApi) {L : SegmentList} {ready_fd : ℤ} {R : Receiver M}
    {t : List (Entry (Receiver M) Input Event)}
    (h : Run (SuccessStep L host) (Receiver.init host ready_fd) t R) {f : ℤ} (hf : 0 ≤ f) :
    History host' R.SS f (arrivals f t) (bytesWritten f (events t)) := by
  induction h with
  | nil => exact .ahead hf (lookup_segstatesetInit 0 f)
  | snoc hrun hstep ih =>
      have hinv := inv_of_success hrun
      rw [arrivals_append, arrivals_singleton, events_append, events_singleton,
        bytesWritten_append]
      exact ih.step codec hsame hinv hstep

/-- In every run in which opening and writing succeed, the output files are those of the
first segments, each begun and ended before the next; and the bytes of every segment that
was retired are those that a segment of its own writes when it is fed, in the same order,
only the datagrams of that number that arrived while it was in the window and not yet
prepared. -/
theorem segments_isolated {host host' : Host M} (codec : StaleFree host.toRqApi)
    (hsame : host'.toRqApi = host.toRqApi) {L : SegmentList} {ready_fd : ℤ} {R : Receiver M}
    {t : List (Entry (Receiver M) Input Event)}
    (h : Run (SuccessStep L host) (Receiver.init host ready_fd) t R) :
    sessions (events t) = closedSessions R.SS.min_file_nbr.toNat ++ R.openSession ∧
      ∀ f, .retired f ∈ events t →
        LoneOutput host' f (arrivals f t) (bytesWritten f (events t)) := by
  have hsessions := sessions_of_run (h.mono fun _ _ _ _ hs => hs.2)
  refine ⟨hsessions, fun f hret => ?_⟩
  have hends := ends_mem_sessions.mpr hret
  rw [hsessions] at hends
  obtain ⟨hnonneg, hlt⟩ : 0 ≤ f ∧ f < R.SS.min_file_nbr.toNat := by
    rcases List.mem_append.mp hends with hclosed | hopen
    · exact mem_closedSessions hclosed
    · unfold Receiver.openSession at hopen
      split at hopen <;> simp at hopen
  exact (history_of_run codec hsame h hnonneg).lone (by omega)

/-- Packets of two segments arrive, and the first one is written; a segment of its own that
finds other bytes in its memory writes the same. -/
theorem segments_isolated_tiny :
    ∃ (n : ℕ) (t : List (Entry (Receiver RepetitionMem) Input Event)) (R : Receiver RepetitionMem),
      t.map Entry.input = [0, 0, 1].map (fun f => recvInput (tinyDatagram f)) ++
        [timeoutInput, writeInput n] ∧
      R.SS.min_file_nbr = 1 ∧ sessions (events t) = [.begins 0, .ends 0] ∧
      LoneOutput { repetitionHost with freshWork := (7, [3]), freshByte := fun _ => 255 } 0
        (arrivals 0 t) (bytesWritten 0 (events t)) := by
  obtain ⟨t, R, R₁, es₁, hrun, hinputs, -, hstep₁, hctl₁⟩ := tiny_timeout repetitionHost
    repetitionHost (n := 2) (by decide) (L := tinyList 2) (-1) [0, 0, 1] (by decide) (by decide) rfl
    (by decide) (by decide) (by decide) (by decide)
  have hrun₁ : Run (SuccessStep (tinyList 2) repetitionHost) _ _ R₁ :=
    (hrun.snoc hstep₁).mono fun _ _ _ _ hs => ⟨hs.1, hs.2.2⟩
  have hmin₁ : R₁.SS.min_file_nbr = 0 := congrArg Control.min hctl₁
  have hfd₁ : R₁.out_fd ≠ -1 := of_decide_eq_true (congrArg Control.writing hctl₁)
  obtain ⟨n, R₂, es₂, hstep₂, hctl₂⟩ := (inv_of_success hrun₁).exists_finish repetitionHost
    (L := tinyList 2) hfd₁ (by rw [hmin₁]; decide)
  rw [hctl₁] at hctl₂
  have hmin₂ : R₂.SS.min_file_nbr = 1 := congrArg Control.min hctl₂
  have hfd₂ : R₂.out_fd = -1 := by
    simpa using of_decide_eq_false (congrArg Control.writing hctl₂)
  have hrun₂ := hrun₁.snoc ⟨⟨by simp [writeInput], by simp [writeInput]⟩, hstep₂⟩
  have hsame : Host.toRqApi { repetitionHost with
      freshWork := (7, [3]), freshByte := fun _ => 255 } = repetitionHost.toRqApi := rfl
  obtain ⟨hsessions, hout⟩ := segments_isolated repetitionStaleFree hsame hrun₂
  rw [Receiver.openSession, if_pos hfd₂, hmin₂] at hsessions
  refine ⟨n, _, R₂, by simp [hinputs], hmin₂, hsessions, hout 0 ?_⟩
  rw [← ends_mem_sessions, hsessions]
  decide

end RqRoute
