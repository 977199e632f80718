import RqRoute.Verification.Receiver.Integrity
import RqRoute.Verification.Receiver.Lossless
import RqRoute.Verification.Receiver.Wakeup

/-! # Streams in order

The datagrams of a playlist arrive in the order of their files. Some of them are lost, some
arrive twice, and within a file they may change places. Which files come out is decided by
which files something arrived of. -/

namespace RqRoute

open Checked Segstateset Transition

variable {M : Type}

/-- The datagrams of file `f`. -/
def ofFile (f : ℕ) (ds : List Datagram) : List Datagram :=
  ds.filter fun d => d.header.toi.toNat = f

/-- Something of every file up to `f` is there. -/
def Unbroken (ds : List Datagram) (f : ℕ) : Prop := ∀ g ≤ f, ∃ d ∈ ds, d.header.toi.toNat = g

/-- Something of a newer file is there that file `f` leaves room for in the ring. -/
def Overtaken (ds : List Datagram) (f : ℕ) : Prop :=
  ∃ d ∈ ds, f < d.header.toi.toNat ∧ d.header.toi.toNat < f + segstateSetN

theorem ofFile_append (f : ℕ) (ds es : List Datagram) :
    ofFile f (ds ++ es) = ofFile f ds ++ ofFile f es := List.filter_append ..

theorem Unbroken.mono {ds : List Datagram} {f g : ℕ} (h : Unbroken ds f) (hle : g ≤ f) :
    Unbroken ds g := fun i hi => h i (hi.trans hle)

theorem Unbroken.ofFile_ne_nil {ds : List Datagram} {f g : ℕ} (h : Unbroken ds f) (hle : g ≤ f) :
    ofFile g ds ≠ [] := by
  obtain ⟨d, hd, htoi⟩ := h g hle
  exact List.ne_nil_of_mem (List.mem_filter.mpr ⟨hd, decide_eq_true htoi⟩)

/-- One datagram makes a difference to its own file only. -/
theorem Unbroken.of_lt {ds : List Datagram} {d : Datagram} {f : ℕ} (h : Unbroken (ds ++ [d]) f)
    (hlt : f < d.header.toi.toNat) : Unbroken ds f := by
  intro g hg
  obtain ⟨e, he, htoi⟩ := h g hg
  rcases List.mem_append.mp he with hold | hnew
  · exact ⟨e, hold, htoi⟩
  · rw [List.mem_singleton.mp hnew] at htoi
    omega

theorem overtaken_append {ds : List Datagram} {d : Datagram} {f : ℕ} :
    Overtaken (ds ++ [d]) f ↔
      Overtaken ds f ∨ f < d.header.toi.toNat ∧ d.header.toi.toNat < f + segstateSetN := by
  simp only [Overtaken, List.mem_append, List.mem_singleton, or_and_right, exists_or,
    exists_eq_left]

/-! ## The automaton -/

/-- Only the newest segment is still received. -/
def Control.Released (c : Control) : Prop :=
  ∀ f, c.mode f = some .receiving → c.recv ≤ f

namespace Control

theorem mode_start_receiving {c : Control} {f : ℤ} (h : c.start.mode f = some .receiving) :
    c.mode f = some .receiving := by
  unfold start at h
  split at h
  · by_cases hf : f = c.min
    · simp [hf] at h
    · simpa [hf] using h
  · exact h

theorem Released.start {c : Control} (h : c.Released) : c.start.Released := by
  intro f hf
  rw [recv_start]
  exact h f (mode_start_receiving hf)

theorem Released.get {c : Control} (h : c.Released) {f : ℤ} (hle : c.recv ≤ f) :
    (c.get f).Released := by
  have henter : (c.enter f).Released := by
    intro g hg
    simp only [enter] at hg ⊢
    rw [max_eq_right hle]
    split at hg
    · omega
    · split at hg
      · obtain ⟨mode, hmode, hrel⟩ := Option.map_eq_some_iff.mp hg
        unfold release at hrel
        split at hrel
        · cases hrel
        · rename_i hno
          subst hrel
          by_contra hlt
          exact hno ⟨rfl, by omega⟩
      · have := h g hg
        omega
  unfold Control.get
  split
  · split
    · exact henter.start
    · exact henter
  · exact h

theorem Released.finish {c : Control} (h : c.Released) : c.finish.Released := by
  refine Released.start fun f hf => ?_
  simp only at hf
  split at hf
  · cases hf
  · exact h f hf

theorem recv_get (c : Control) (f : ℤ) :
    (c.get f).recv =
      if (c.min ≤ f ∧ f < c.min + segstateSetN) ∧ c.mode f = none then max c.recv f
      else c.recv := by
  unfold get
  split
  · split
    · exact recv_start _
    · rfl
  · rfl

theorem Released.timeout {c : Control} (h : c.Released) : c.timeout.Released :=
  Released.start (c := { c with write_ok := true }) h

end Control

/-- What a pass does to the automaton when it receives nothing. -/
theorem Receiver.Inv.control_other {L : SegmentList} {host : Host M} {R R' : Receiver M}
    {i : Input} {es : List Event} (h : R.Inv) (hopen : i.opened ≠ none)
    (hs : R.Step L host i R' es) (hno : nexttask R i.sel ≠ .ok (some .recv)) :
    R'.control = R.control ∨ R'.control = R.control.finish ∨ R'.control = R.control.timeout := by
  obtain ⟨hmay, -, hpass⟩ := step_iff.mp hs
  cases hpass with
  | recv htask => exact absurd htask hno
  | write htask hwrites =>
      rcases h.control_writes (nexttask_write htask) hopen hwrites with heq | heq
      · exact .inl heq
      · exact .inr (.inl heq)
  | startWrite htask hstarts =>
      obtain ⟨hfd, hst, -⟩ := nexttask_startWrite hmay htask
      exact .inr (.inr ((h.permit hst).control_starts hfd hopen hstarts))
  | signalReady => exact .inl rfl

theorem arrival_of_ne {R : Receiver M} {i : Input} (f : ℤ)
    (hno : nexttask R i.sel ≠ .ok (some .recv)) : R.arrival f i = [] := by
  have hnone : R.received i = none := by
    unfold Receiver.received
    split
    · rename_i htask _
      exact absurd htask hno
    · rfl
  rw [Receiver.arrival, hnone]
  rfl

/-! ## The invariant -/

/-- What holds when `seen` has been received and `rest` is under way. -/
structure InOrder (sender : Host M) (files : List (List UInt8)) (L : SegmentList) (host : Host M)
    (ready_fd : ℤ) (seen rest : List Datagram) (t : List (Entry (Receiver M) Input Event))
    (R : Receiver M) : Prop where
  run : Run (SmoothStep sender files L host) (Receiver.init host ready_fd) t R
  sent : ∀ d ∈ seen ++ rest, Sent sender files d
  sorted : (seen ++ rest).Pairwise fun d e => d.header.toi.toNat ≤ e.header.toi.toNat
  ahead : ∀ d ∈ rest, R.recv_file_nbr ≤ d.header.toi.toNat
  released : R.control.Released
  min_le : R.SS.min_file_nbr ≤ max R.recv_file_nbr 0
  fed : ∀ f : ℕ, (arrivals f t).Sublist (ofFile f seen)
  arrived : ∀ f : ℕ, Unbroken seen f → arrivals f t = ofFile f seen
  reached : ∀ f : ℕ, Unbroken seen f → f ≤ R.recv_file_nbr
  passed : ∀ f : ℕ, Unbroken seen f → (f < R.recv_file_nbr ↔ Overtaken seen f)

namespace InOrder

variable {sender host : Host M} {files : List (List UInt8)} {L : SegmentList} {ready_fd : ℤ}
  {seen rest : List Datagram} {t : List (Entry (Receiver M) Input Event)} {R : Receiver M}

theorem inv (h : InOrder sender files L host ready_fd seen rest t R) : R.Inv :=
  inv_of_run (h.run.mono fun _ _ _ _ hs => hs.2.2)

/-- A quiet receiver has written everything in front of a file that nothing is missing before. -/
theorem caught_up (stale : StaleFree host.toRqApi)
    (h : InOrder sender files L host ready_fd seen rest t R) (hquiet : R.Quiet) {f : ℕ}
    (hf : Unbroken seen f) (hmin : R.SS.min_file_nbr ≤ f) :
    R.SS.min_file_nbr = R.recv_file_nbr := by
  have hinv := h.inv
  have hnonneg := hinv.min_nonneg
  have hcast : (R.SS.min_file_nbr.toNat : ℤ) = R.SS.min_file_nbr := by omega
  have hfirst : Unbroken seen R.SS.min_file_nbr.toNat := hf.mono (by omega)
  have hhist := history_of_run stale rfl
    (h.run.mono fun _ _ _ _ hs => ⟨hs.1, hs.2.2⟩) hnonneg
  have hne := hfirst.ofFile_ne_nil le_rfl
  rw [← h.arrived _ hfirst, hcast] at hne
  obtain ⟨S, hS⟩ : ∃ S, R.SS.lookup R.SS.min_file_nbr = some S := by
    generalize arrivals R.SS.min_file_nbr t = ds at hhist hne
    generalize bytesWritten R.SS.min_file_nbr (events t) = out at hhist
    cases hhist with
    | ahead => exact absurd rfl hne
    | gathered hS => exact ⟨_, hS⟩
    | drained hS => exact ⟨_, hS⟩
    | retired hlt => exact absurd hlt (Int.lt_irrefl _)
  have hst := hinv.started_of_lookup hS
  have hok : R.write_ok = true := by
    by_contra hno
    exact hquiet.2 ⟨hquiet.1, hst, hno⟩
  have hprompt := (prompt_of_run
    (h.run.mono fun _ _ _ _ hs => ⟨hs.1.1, hs.2.2⟩)).2
  have hmode : S.mode = .receiving := by
    cases hm : S.mode with
    | receiving => rfl
    | readyToWrite =>
        refine absurd ?_ (hprompt hok (by simp [Receiver.control, hquiet.1]))
        rw [← hm]
        exact control_mode hS
    | writing => exact absurd hm (hinv.gathers_of_closed hquiet.1 hS).mode_ne
  have hle := hinv.le_recv _ S hS
  have hge := h.released R.SS.min_file_nbr (by rw [← hmode]; exact control_mode hS)
  exact Int.le_antisymm hle hge

theorem init (sender : Host M) (files : List (List UInt8)) (L : SegmentList) (host : Host M)
    (ready_fd : ℤ) {ds : List Datagram} (hsent : ∀ d ∈ ds, Sent sender files d)
    (hsorted : ds.Pairwise fun d e => d.header.toi.toNat ≤ e.header.toi.toNat) :
    InOrder sender files L host ready_fd [] ds [] (Receiver.init host ready_fd) where
  run := .nil
  sent := hsent
  sorted := hsorted
  ahead d _ := by
    change (-1 : ℤ) ≤ _
    omega
  released f hf := by
    rw [control_init] at hf
    cases hf
  min_le := le_max_right ..
  fed _ := List.nil_sublist _
  arrived _ _ := rfl
  reached f hf := by
    obtain ⟨d, hd, -⟩ := hf f le_rfl
    cases hd
  passed f hf := by
    obtain ⟨d, hd, -⟩ := hf f le_rfl
    cases hd

/-- A pass that receives nothing. -/
theorem other (h : InOrder sender files L host ready_fd seen rest t R) {R' : Receiver M}
    {i : Input} {es : List Event} (hs : SmoothStep sender files L host R i R' es)
    (hno : nexttask R i.sel ≠ .ok (some .recv)) :
    InOrder sender files L host ready_fd seen rest (t ++ [⟨R, i, es⟩]) R' := by
  have hctl := h.inv.control_other hs.1.1 hs.2.2 hno
  have hrecv : R'.recv_file_nbr = R.recv_file_nbr := by
    rcases hctl with heq | heq | heq
    · exact congrArg Control.recv heq
    · exact (congrArg Control.recv heq).trans (Control.recv_start _)
    · exact (congrArg Control.recv heq).trans (Control.recv_start _)
  have harrivals : ∀ f, arrivals f (t ++ [⟨R, i, es⟩]) = arrivals f t := by
    intro f
    rw [arrivals_append, arrivals_singleton, arrival_of_ne f hno, List.append_nil]
  refine ⟨h.run.snoc hs, h.sent, h.sorted, ?_, ?_, ?_, ?_, ?_, ?_, ?_⟩
  · rw [hrecv]
    exact h.ahead
  · rcases hctl with heq | heq | heq
    · exact heq ▸ h.released
    · exact heq ▸ h.released.finish
    · exact heq ▸ h.released.timeout
  · rw [hrecv]
    rcases hs.2.2.min_file_nbr h.inv with heq | ⟨heq, htask, -⟩
    · rw [heq]
      exact h.min_le
    · obtain ⟨S, hS, hd⟩ := h.inv.drains (nexttask_write htask)
      have holder := h.inv.older _ S hS (by simp [hd.mode_eq])
      omega
  · intro f
    rw [harrivals]
    exact h.fed f
  · intro f
    rw [harrivals]
    exact h.arrived f
  · rw [hrecv]
    exact h.reached
  · rw [hrecv]
    exact h.passed

section
variable {d : Datagram}

theorem genuine (h : InOrder sender files L host ready_fd seen (d :: rest) t R)
    (hlen : files.length ≤ 65536) (hsmall : SmallFiles files) : Genuine files d :=
  (h.sent d (by simp)).genuine hlen hsmall

theorem recv_le (h : InOrder sender files L host ready_fd seen (d :: rest) t R) :
    R.recv_file_nbr ≤ d.header.toi.toNat := h.ahead d List.mem_cons_self

theorem seen_le (h : InOrder sender files L host ready_fd seen (d :: rest) t R) :
    ∀ e ∈ seen, e.header.toi.toNat ≤ d.header.toi.toNat := fun e he =>
  (List.pairwise_append.mp h.sorted).2.2 e he d List.mem_cons_self

/-- The newest file is the one of the last datagram that found its place in the ring. -/
theorem recv_after (h : InOrder sender files L host ready_fd seen (d :: rest) t R)
    {R' : Receiver M} (hctl : R'.control = R.control.get d.header.toi.toNat) :
    R'.recv_file_nbr =
      if R.SS.InWindow d.header.toi.toNat then (d.header.toi.toNat : ℤ) else R.recv_file_nbr := by
  have hle := h.recv_le
  have hrecv : R'.recv_file_nbr = _ := (congrArg Control.recv hctl).trans (Control.recv_get ..)
  rw [hrecv]
  by_cases hin : R.SS.InWindow d.header.toi.toNat
  · rw [if_pos hin]
    cases hS : R.SS.lookup d.header.toi.toNat with
    | none =>
        rw [if_pos ⟨hin, control_mode_eq_none.mpr hS⟩]
        exact max_eq_right hle
    | some S =>
        rw [if_neg fun hc => by rw [control_mode hS] at hc; cases hc.2]
        exact Int.le_antisymm hle (h.inv.le_recv _ S hS)
  · rw [if_neg hin, if_neg fun hc => hin hc.1]
    rfl

/-- What of it arrives at the segments. -/
theorem arrival_after (h : InOrder sender files L host ready_fd seen (d :: rest) t R)
    (hlen : files.length ≤ 65536) (hsmall : SmallFiles files) {i : Input}
    (htask : nexttask R i.sel = .ok (some .recv)) (hpkt : i.recv = .packet d) (f : ℕ) :
    R.arrival f i =
      if R.SS.InWindow d.header.toi.toNat then ofFile f [d] else [] := by
  have hle := h.recv_le
  have hprep : ¬R.Prepared d.header.toi.toNat := by
    rintro ⟨S, hS, hmode⟩
    have := h.inv.older _ S hS (by simp [hmode])
    omega
  rw [Receiver.arrival, received_recv htask hpkt, (h.genuine hlen hsmall).cutDatagram_eq]
  change [d].filter _ = _
  by_cases hin : R.SS.InWindow d.header.toi.toNat
  · rw [if_pos hin, ofFile]
    refine List.filter_congr fun e he => ?_
    obtain rfl := List.mem_singleton.mp he
    rw [decide_eq_decide]
    constructor
    · exact fun hadm => by exact_mod_cast hadm.1
    · rintro rfl
      exact ⟨rfl, hin, hprep⟩
  · rw [if_neg hin, List.filter_eq_nil_iff]
    intro e he hadm
    obtain rfl := List.mem_singleton.mp he
    obtain ⟨htoi, hin', -⟩ := of_decide_eq_true hadm
    exact hin (htoi ▸ hin')

/-- The next datagram of a file that nothing is missing before finds its place. -/
theorem room (stale : StaleFree host.toRqApi)
    (h : InOrder sender files L host ready_fd seen (d :: rest) t R) (hquiet : R.Quiet)
    (hd : Unbroken (seen ++ [d]) d.header.toi.toNat) :
    R.SS.InWindow d.header.toi.toNat := by
  have hmin := h.min_le
  have hle := h.recv_le
  have hnonneg := h.inv.min_nonneg
  rw [inWindow_iff]
  by_contra hout
  have hprev : Unbroken seen (d.header.toi.toNat - 1) :=
    (hd.mono (Nat.sub_le _ _)).of_lt (by omega)
  have hfirst := h.caught_up stale hquiet hprev (by omega)
  have hreached := h.reached _ hprev
  omega

/-- The files that something arrived of are in front of the next datagram. -/
theorem unbroken_le (h : InOrder sender files L host ready_fd seen (d :: rest) t R) {f : ℕ}
    (hf : Unbroken (seen ++ [d]) f) : f ≤ d.header.toi.toNat := by
  obtain ⟨e, he, htoi⟩ := hf f le_rfl
  rcases List.mem_append.mp he with hold | hnew
  · exact htoi ▸ h.seen_le e hold
  · rw [List.mem_singleton.mp hnew] at htoi
    exact htoi.ge

/-- Everything of the file of the next datagram has arrived, if nothing is missing before. -/
theorem arrived_newest (h : InOrder sender files L host ready_fd seen (d :: rest) t R)
    (hd : Unbroken (seen ++ [d]) d.header.toi.toNat) :
    arrivals d.header.toi.toNat t = ofFile d.header.toi.toNat seen := by
  by_cases hold : Unbroken seen d.header.toi.toNat
  · exact h.arrived _ hold
  · have hnone : ofFile d.header.toi.toNat seen = [] := by
      rw [ofFile, List.filter_eq_nil_iff]
      intro e he htoi
      refine hold fun g hg => ?_
      rcases hg.lt_or_eq with hlt | rfl
      · exact (hd.mono hg).of_lt hlt g le_rfl
      · exact ⟨e, he, of_decide_eq_true htoi⟩
    have hfed := h.fed d.header.toi.toNat
    rw [hnone] at hfed ⊢
    exact List.sublist_nil.mp hfed

/-- The next datagram lets the newest file go exactly when it finds its place. -/
theorem overtakes (stale : StaleFree host.toRqApi)
    (h : InOrder sender files L host ready_fd seen (d :: rest) t R) (hquiet : R.Quiet) {f : ℕ}
    (hf : Unbroken seen f) (hlt : f < d.header.toi.toNat) (hnewest : f = R.recv_file_nbr) :
    R.SS.InWindow d.header.toi.toNat ↔ d.header.toi.toNat < f + segstateSetN := by
  have hmin := h.min_le
  have hfirst := h.caught_up stale hquiet hf (by omega)
  rw [inWindow_iff, hfirst, ← hnewest]
  unfold segstateSetN
  omega

/-- The datagram that is received next. -/
theorem receive (stale : StaleFree host.toRqApi) (hlen : files.length ≤ 65536)
    (hsmall : SmallFiles files) (h : InOrder sender files L host ready_fd seen (d :: rest) t R)
    (hquiet : R.Quiet) {R' : Receiver M} {i : Input} {es : List Event}
    (hs : SmoothStep sender files L host R i R' es)
    (htask : nexttask R i.sel = .ok (some .recv)) (hpkt : i.recv = .packet d) :
    InOrder sender files L host ready_fd (seen ++ [d]) rest (t ++ [⟨R, i, es⟩]) R' := by
  have hle := h.recv_le
  have hctl : R'.control = R.control.get d.header.toi.toNat := by
    obtain ⟨-, -, hpass⟩ := step_iff.mp hs.2.2
    cases hpass with
    | @recv e _ _ _ hpkt' hgets =>
        obtain rfl : d = e := Recv.packet.inj (hpkt.symm.trans hpkt')
        rw [(h.genuine hlen hsmall).cutDatagram_eq] at hgets
        exact h.inv.control_gets hs.1.1 hgets
    | write htask' | startWrite htask' | signalReady htask' =>
        rw [htask] at htask'
        cases htask'
  have hrecv := h.recv_after hctl
  have hgrows : R.recv_file_nbr ≤ R'.recv_file_nbr := by
    rw [hrecv]
    split <;> omega
  have hbound : R'.recv_file_nbr ≤ d.header.toi.toNat := by
    rw [hrecv]
    split <;> omega
  have harrivals : ∀ f : ℕ, arrivals f (t ++ [⟨R, i, es⟩]) = arrivals f t ++
      if R.SS.InWindow d.header.toi.toNat then ofFile f [d] else [] := by
    intro f
    rw [arrivals_append, arrivals_singleton, h.arrival_after hlen hsmall htask hpkt]
  refine ⟨h.run.snoc hs, by simpa using h.sent, by simpa using h.sorted, ?_, ?_, ?_, ?_, ?_, ?_, ?_⟩
  · intro e he
    have hnext := (List.pairwise_cons.mp (List.pairwise_append.mp h.sorted).2.1).1 e he
    omega
  · rw [hctl]
    exact h.released.get hle
  · have hmin : R'.SS.min_file_nbr = R.SS.min_file_nbr :=
      (congrArg Control.min hctl).trans (Control.min_get ..)
    have := h.min_le
    omega
  · intro f
    rw [harrivals, ofFile_append]
    refine (h.fed f).append ?_
    split
    · exact List.Sublist.refl _
    · exact List.nil_sublist _
  · intro f hf
    rw [harrivals, ofFile_append]
    rcases (h.unbroken_le hf).lt_or_eq with hlt | rfl
    · have hother : ofFile f [d] = [] := by
        rw [ofFile, List.filter_eq_nil_iff]
        intro e he
        rw [List.mem_singleton.mp he]
        simpa using hlt.ne'
      rw [h.arrived f (hf.of_lt hlt), hother, ite_self]
    · rw [if_pos (h.room stale hquiet hf), h.arrived_newest hf]
  · intro f hf
    rcases (h.unbroken_le hf).lt_or_eq with hlt | rfl
    · exact (h.reached f (hf.of_lt hlt)).trans hgrows
    · rw [hrecv, if_pos (h.room stale hquiet hf)]
  · intro f hf
    rw [overtaken_append]
    rcases (h.unbroken_le hf).lt_or_eq with hlt | rfl
    · have hold := hf.of_lt hlt
      rw [← h.passed f hold]
      rcases (h.reached f hold).lt_or_eq with hgone | hnewest
      · exact iff_of_true (by omega) (.inl hgone)
      · have hovertakes := h.overtakes stale hquiet hold hlt hnewest
        rw [hrecv]
        by_cases hin : R.SS.InWindow d.header.toi.toNat
        · rw [if_pos hin]
          exact iff_of_true (by omega) (.inr ⟨hlt, hovertakes.mp hin⟩)
        · rw [if_neg hin]
          exact iff_of_false (by omega) fun hor => hor.elim (by omega) fun hroom =>
            hin (hovertakes.mpr hroom.2)
    · refine iff_of_false (by omega) ?_
      rintro (⟨e, he, hgt, -⟩ | ⟨hgt, -⟩)
      · exact absurd (h.seen_le e he) (by omega)
      · exact absurd hgt (lt_irrefl _)

end

/-- At rest, the files that have been written are those that nothing is missing before and that
a newer file has released. -/
theorem min_eq (stale : StaleFree host.toRqApi)
    (h : InOrder sender files L host ready_fd seen rest t R) (hquiet : R.Quiet) (f : ℕ) :
    f < R.SS.min_file_nbr ↔ Unbroken seen f ∧ Overtaken seen f := by
  have hmin := h.min_le
  constructor
  · intro hlt
    have hall : Unbroken seen f := by
      intro g hg
      have hhist := history_of_run stale rfl
        (h.run.mono fun _ _ _ _ hs => ⟨hs.1, hs.2.2⟩)
        (Int.natCast_nonneg g)
      have hlone := hhist.lone (by omega)
      obtain ⟨d, hd⟩ : ∃ d, d ∈ arrivals g t := by
        refine List.exists_mem_of_ne_nil _ fun hnil => ?_
        rw [hnil] at hlone
        cases hlone 0 []
      obtain ⟨hd, htoi⟩ := List.mem_filter.mp ((h.fed g).mem hd)
      exact ⟨d, hd, of_decide_eq_true htoi⟩
    exact ⟨hall, (h.passed f hall).mp (by omega)⟩
  · rintro ⟨hall, hgone⟩
    have hlt := (h.passed f hall).mpr hgone
    by_contra hle
    have hfirst := h.caught_up stale hquiet hall (by omega)
    omega

end InOrder

/-! ## Whole runs -/

/-- The steps of the receiver alone. -/
def receiverSteps (t : List (Entry (Receiver M × List Datagram) Input Event)) :
    List (Entry (Receiver M) Input Event) := t.map (Entry.map Prod.fst)

theorem inOrder_of_run {sender host : Host M} (stale : StaleFree host.toRqApi)
    {files : List (List UInt8)} (hlen : files.length ≤ 65536) (hsmall : SmallFiles files)
    {L : SegmentList} {ready_fd : ℤ} {ds₀ : List Datagram}
    (hsent : ∀ d ∈ ds₀, Sent sender files d)
    (hsorted : ds₀.Pairwise fun d e => d.header.toi.toNat ≤ e.header.toi.toNat)
    {t : List (Entry (Receiver M × List Datagram) Input Event)} {s : Receiver M × List Datagram}
    (h : Run (LosslessStep L host) (Receiver.init host ready_fd, ds₀) t s) :
    ∃ seen, ds₀ = seen ++ s.2 ∧
      InOrder sender files L host ready_fd seen s.2 (receiverSteps t) s.1 := by
  induction h with
  | nil => exact ⟨[], rfl, InOrder.init sender files L host ready_fd hsent hsorted⟩
  | @snoc t s s' i es hrun hstep ih =>
      obtain ⟨seen, hsplit, hord⟩ := ih
      obtain ⟨hsmooth, hstep, hstream⟩ := hstep
      rw [receiverSteps, List.map_append]
      split at hstream
      · rename_i htask
        obtain ⟨hquiet, d, hpkt, hds⟩ := hstream
        rw [hds] at hsplit hord
        refine ⟨seen ++ [d], by simpa using hsplit, ?_⟩
        exact hord.receive stale hlen hsmall hquiet
          ⟨hsmooth, fun _ => .inr ⟨d, hord.sent d (by simp), hpkt⟩, hstep⟩ htask hpkt
      · rename_i hno
        rw [hstream]
        exact ⟨seen, hsplit, hord.other ⟨hsmooth, fun htask => absurd htask hno, hstep⟩ hno⟩

/-- At rest, nothing is written of the first segment of the window. -/
theorem nothing_open {host : Host M} (stale : StaleFree host.toRqApi) {L : SegmentList}
    {ready_fd : ℤ} {R : Receiver M} {t : List (Entry (Receiver M) Input Event)}
    (h : Run (SuccessStep L host) (Receiver.init host ready_fd) t R) (hfd : R.out_fd = -1) :
    bytesWritten R.SS.min_file_nbr (events t) = [] := by
  have hinv := inv_of_success h
  have hhist := history_of_run stale rfl h hinv.min_nonneg
  generalize bytesWritten R.SS.min_file_nbr (events t) = out at hhist ⊢
  generalize arrivals R.SS.min_file_nbr t = ds at hhist
  cases hhist with
  | ahead | gathered => rfl
  | drained hS hwrites => exact absurd hwrites.mode_eq (hinv.gathers_of_closed hfd hS).mode_ne
  | retired hlt => exact absurd hlt (Int.lt_irrefl _)

section
variable {sender host : Host M} {files : List (List UInt8)} {L : SegmentList} {ds : List Datagram}

/-- A stream in order is received to its end. -/
theorem exists_in_order_run (host : Host M) (hn : 1 ≤ files.length) (hlen : files.length ≤ 65536)
    (hsmall : SmallFiles files) (hL : L.n_segments = files.length) (ready_fd : ℤ)
    (hsent : ∀ d ∈ ds, Sent sender files d)
    (hsorted : ds.Pairwise fun d e => d.header.toi.toNat ≤ e.header.toi.toNat) :
    ∃ t R, Run (LosslessStep L host) (Receiver.init host ready_fd, ds) t (R, []) ∧ R.Quiet := by
  have hgen : ∀ d ∈ ds, Genuine files d := fun d hd => (hsent d hd).genuine hlen hsmall
  obtain ⟨⟨hfits, -⟩, -⟩ := fits_of_lossless_run (L := L) host ready_fd hn hgen .nil
  refine hfits.lossless_run host hL hgen hsorted fun d _ => ?_
  change (-1 : ℤ) ≤ _
  omega

/-- What has come out when a stream in order has been received to its end. -/
theorem in_order_output (codec : CodecContract host.toRqApi) (stale : StaleFree host.toRqApi)
    (hsame : sender.toRqApi = host.toRqApi) (hlen : files.length ≤ 65536)
    (hsmall : SmallFiles files) {ready_fd : ℤ} (hsent : ∀ d ∈ ds, Sent sender files d)
    (hsorted : ds.Pairwise fun d e => d.header.toi.toNat ≤ e.header.toi.toNat)
    {t : List (Entry (Receiver M × List Datagram) Input Event)} {R : Receiver M}
    (hrun : Run (LosslessStep L host) (Receiver.init host ready_fd, ds) t (R, []))
    (hquiet : R.Quiet) :
    0 ≤ R.SS.min_file_nbr ∧
      (∀ f : ℕ, f < R.SS.min_file_nbr ↔ Unbroken ds f ∧ Overtaken ds f) ∧
      ∃ outs : ℕ → List UInt8,
        (∀ (f : ℕ) content, files[f]? = some content → f < R.SS.min_file_nbr →
          Restored host f content (ofFile f ds) (outs f)) ∧
        written (events t) = (List.range R.SS.min_file_nbr.toNat).flatMap outs := by
  obtain ⟨seen, hseen, hord⟩ := inOrder_of_run stale hlen hsmall hsent hsorted hrun
  obtain rfl : ds = seen := by simpa using hseen
  have hmin := hord.min_eq stale hquiet
  refine ⟨hord.inv.min_nonneg, hmin, ?_⟩
  choose outs hrestored hclosed hpart using
    restored_of_run codec stale hsame hlen hsmall hord.run
  refine ⟨outs, fun f content hf hlt => ?_, ?_⟩
  · rw [← hord.arrived f ((hmin f).mp hlt).1]
    exact hrestored f content hf
  · have hwritten := written_eq (hord.run.mono fun _ _ _ _ hs => hs.2.2) hclosed
    rw [nothing_open stale (hord.run.mono fun _ _ _ _ hs => ⟨hs.1, hs.2.2⟩) hquiet.1,
      List.append_nil, receiverSteps, events_map] at hwritten
    exact hwritten

/-- A stream of datagrams of the playlist whose file numbers never go down is received to its
end. Then the files that have come out are those up to which nothing is missing altogether and
which a newer file has overtaken while it was in the ring; they come out in their order, each
as its datagrams restore it, and nothing else does. -/
theorem in_order_stream (codec : CodecContract host.toRqApi) (stale : StaleFree host.toRqApi)
    (hsame : sender.toRqApi = host.toRqApi) (hn : 1 ≤ files.length) (hlen : files.length ≤ 65536)
    (hsmall : SmallFiles files) (hL : L.n_segments = files.length) (ready_fd : ℤ)
    (hsent : ∀ d ∈ ds, Sent sender files d)
    (hsorted : ds.Pairwise fun d e => d.header.toi.toNat ≤ e.header.toi.toNat) :
    (∃ t R, Run (LosslessStep L host) (Receiver.init host ready_fd, ds) t (R, []) ∧ R.Quiet) ∧
      ∀ t R, Run (LosslessStep L host) (Receiver.init host ready_fd, ds) t (R, []) → R.Quiet →
        (∀ f : ℕ, f < R.SS.min_file_nbr ↔ Unbroken ds f ∧ Overtaken ds f) ∧
        ∃ outs : ℕ → List UInt8,
          (∀ (f : ℕ) content, files[f]? = some content → f < R.SS.min_file_nbr →
            Restored host f content (ofFile f ds) (outs f)) ∧
          written (events t) = (List.range R.SS.min_file_nbr.toNat).flatMap outs := by
  refine ⟨exists_in_order_run host hn hlen hsmall hL ready_fd hsent hsorted, ?_⟩
  intro t R hrun hquiet
  exact (in_order_output codec stale hsame hlen hsmall hsent hsorted hrun hquiet).2

end

/-- Of three files, nothing of the second arrives: the first comes out, and no other. -/
theorem in_order_stream_gap :
    ∃ (t : List (Entry (Receiver RepetitionMem × List Datagram) Input Event))
      (R : Receiver RepetitionMem),
      Run (LosslessStep (tinyList 3) repetitionHost)
        (Receiver.init repetitionHost (-1), [tinyDatagram 0, tinyDatagram 2]) t (R, []) ∧
      R.SS.min_file_nbr = 1 ∧ written (events t) = [0] := by
  have hsent : ∀ d ∈ [tinyDatagram 0, tinyDatagram 2], Sent repetitionHost (tinyFiles 3) d := by
    intro d hd
    rcases List.mem_pair.mp hd with rfl | rfl
    · exact sent_tinyDatagram repetitionHost (by decide)
    · exact sent_tinyDatagram repetitionHost (by decide)
  obtain ⟨⟨t, R, hrun, hquiet⟩, hall⟩ := in_order_stream repetitionContract repetitionStaleFree
    rfl (by decide) (by decide) (smallFiles_tiny 3) (L := tinyList 3) rfl (-1) hsent (by decide)
  obtain ⟨hmin, outs, hrestored, hwritten⟩ := hall t R hrun hquiet
  have hfirst : (0 : ℕ) < R.SS.min_file_nbr := (hmin 0).mpr
    ⟨fun g hg => ⟨tinyDatagram 0, by simp, by obtain rfl := Nat.le_zero.mp hg; decide⟩,
      tinyDatagram 2, by simp, by decide⟩
  have hsecond : ¬((1 : ℕ) : ℤ) < R.SS.min_file_nbr := by
    intro hlt
    obtain ⟨d, hd, htoi⟩ := ((hmin 1).mp hlt).1 1 le_rfl
    rcases List.mem_pair.mp hd with rfl | rfl
    · exact absurd htoi (by decide)
    · exact absurd htoi (by decide)
  have hone : R.SS.min_file_nbr = 1 := by omega
  have hout : outs 0 = [0] := (hrestored 0 [0] rfl hfirst).complete (by decide)
  refine ⟨t, R, hrun, hone, ?_⟩
  rw [hwritten, hone]
  simpa using hout

end RqRoute
