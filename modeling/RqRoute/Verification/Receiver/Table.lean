import RqRoute.Verification.Codec.Contract
import RqRoute.Verification.Receiver.Progress

/-! # Reading the segment table

The loop stops once the window has moved past the last entry of the list. But the write
that moves it there looks for the next segment in the same pass, and reads one entry too
many when that segment, which the list does not have, has been released. -/

namespace RqRoute

open Checked Segstateset Transition

variable {M : Type} {host : Host M} {L : SegmentList} {R R' : Receiver M} {i : Input}
  {es : List Event}

/-! ## Which entry is read -/

/-- `task_start_write` reads the entry of the first segment, when that is ready. -/
theorem Receiver.Starts.lookedUp_iff {opened : Option ℕ} (h : R.Starts host opened es R') {f : ℤ} :
    .lookedUp f ∈ es ↔
      f = R.SS.min_file_nbr ∧ ∃ S, R.SS.lookup R.SS.min_file_nbr = some S ∧
        S.mode = .readyToWrite := by
  cases h with
  | idle hnot =>
      refine ⟨fun h => absurd h List.not_mem_nil, ?_⟩
      rintro ⟨-, S, hS, hmode⟩
      exact absurd hmode (hnot S hS)
  | refused hS hmode =>
      simp only [List.mem_singleton, Event.lookedUp.injEq]
      exact ⟨fun h => ⟨h, _, hS, hmode⟩, fun h => h.1⟩
  | opens hS hmode =>
      simp only [List.mem_cons, Event.lookedUp.injEq, reduceCtorEq, List.not_mem_nil, or_false]
      exact ⟨fun h => ⟨h, _, hS, hmode⟩, fun h => h.1⟩

/-- What the descriptor does with the request ends the segment. -/
def Input.Ends (i : Input) (S : Segstate) : Prop :=
  ∀ k, i.taken = some k → S.file_len ≤ S.out_cb_buf_offs + k

/-- A write moves the window on exactly when it ends its segment. -/
theorem Receiver.Inv.more_iff (h : R.Inv) (hfd : R.out_fd ≠ -1) {S : Segstate}
    (hS : R.SS.lookup R.SS.min_file_nbr = some S) {w : WriteMore M}
    (hw : segstateWriteMore host { S, codec_mem := R.codec_mem } i.taken = .ok w) :
    w.more = false ↔ i.Ends S := by
  obtain ⟨S', hS', hd⟩ := h.drains hfd
  obtain rfl := Option.some.inj (hS.symm.trans hS')
  obtain ⟨file_len, offs, hwr⟩ := hd.writes
  have hopen : S.out_fd ≠ -1 := by
    rw [hd.out_fd_eq]
    exact hfd
  unfold Input.Ends
  rw [hwr.file_len_eq, hwr.offs_eq]
  cases htaken : i.taken with
  | none =>
      rw [htaken, hwr.writeMore_error hopen] at hw
      cases hw
      simp
  | some k =>
      have hlt := hwr.offs_lt
      rw [htaken, hwr.writeMore_some hopen] at hw
      cases hw
      simp only [decide_eq_false_iff_not, ne_eq, not_not, Option.some.injEq, forall_eq']
      omega

/-- The window moves by one segment at most, and only in a write that ends its segment. -/
theorem Receiver.Step.min_file_nbr (h : R.Inv) (hs : R.Step L host i R' es) :
    R'.SS.min_file_nbr = R.SS.min_file_nbr ∨
      R'.SS.min_file_nbr = R.SS.min_file_nbr + 1 ∧ nexttask R i.sel = .ok (some .write) ∧
        ∃ S, R.SS.lookup R.SS.min_file_nbr = some S ∧ i.Ends S := by
  obtain ⟨-, -, hpass⟩ := step_iff.mp hs
  cases hpass with
  | recv _ _ hgets =>
      cases hgets with
      | outside | known => exact .inl rfl
      | first => exact .inl (min_enter ..)
      | newest _ _ _ _ _ _ hstart => exact .inl (hstart.frame.1.trans (min_enter ..))
  | write htask hwrites =>
      cases hwrites with
      | more => exact .inl rfl
      | last hS hw hmore hstart =>
          exact .inr ⟨hstart.frame.1, htask, _, hS,
            (h.more_iff (nexttask_write htask) hS hw).mp hmore⟩
  | startWrite _ hstart => exact .inl hstart.frame.1
  | signalReady => exact .inl rfl

/-! ## Reading past the end -/

/-- The write that ends the last segment of a list of `n`, while the ring holds another
segment that has been released. -/
structure Receiver.Overrun (n : ℤ) (R : Receiver M) (i : Input) : Prop where
  task : nexttask R i.sel = .ok (some .write)
  last : R.SS.min_file_nbr + 1 = n
  ends : ∃ S, R.SS.lookup R.SS.min_file_nbr = some S ∧ i.Ends S
  next : ∃ S, R.SS.lookup n = some S ∧ S.mode = .readyToWrite

/-- The entries that the events read are those of a table of `n`. -/
def InTable (n : ℤ) (es : List Event) : Prop := ∀ f, .lookedUp f ∈ es → 0 ≤ f ∧ f < n

theorem Receiver.Starts.inTable {opened : Option ℕ} {n : ℤ} (h : R.Starts host opened es R')
    (hnonneg : 0 ≤ R.SS.min_file_nbr) (hlt : R.SS.min_file_nbr < n) : InTable n es := by
  intro f hf
  obtain ⟨rfl, -⟩ := h.lookedUp_iff.mp hf
  exact ⟨hnonneg, hlt⟩

theorem inTable_append {n : ℤ} {es es' : List Event} :
    InTable n (es ++ es') ↔ InTable n es ∧ InTable n es' := by
  unfold InTable
  rw [← forall_and]
  refine forall_congr' fun f => ?_
  rw [List.mem_append, or_imp]

theorem inTable_of_forall_ne {n : ℤ} {es : List Event} (h : ∀ f, .lookedUp f ∉ es) :
    InTable n es := fun f hf => absurd hf (h f)

/-- What the ring holds beyond the segment that is retired. -/
theorem lookup_retire_next (R : Receiver M) (m : SegMem M) :
    (R.retire m).SS.lookup (R.SS.min_file_nbr + 1) = R.SS.lookup (R.SS.min_file_nbr + 1) := by
  have hne : R.SS.min_file_nbr + 1 ≠ R.SS.min_file_nbr := by omega
  rw [Receiver.retire, lookup_incMinFileNbr, min_put, if_neg hne,
    lookup_put_of_ne R.SS.inWindow_min _ hne]

/-- Such a write reads the entry past the end. -/
theorem Receiver.Overrun.lookedUp {n : ℤ} (hover : R.Overrun n i) (h : R.Inv)
    (hs : R.Step L host i R' es) : .lookedUp n ∈ es := by
  obtain ⟨S, hS, hends⟩ := hover.ends
  obtain ⟨-, -, hpass⟩ := step_iff.mp hs
  cases hpass with
  | write htask hwrites =>
      cases hwrites with
      | more hS' hw hmore =>
          obtain rfl := Option.some.inj (hS.symm.trans hS')
          rw [(h.more_iff (nexttask_write htask) hS hw).mpr hends] at hmore
          cases hmore
      | @last _ w _ _ _ _ _ hstart =>
          obtain ⟨T, hT, hmode⟩ := hover.next
          rw [← hover.last] at hT
          refine List.mem_append_right _ (hstart.lookedUp_iff.mpr ⟨hover.last.symm, T, ?_, hmode⟩)
          exact (lookup_retire_next R w.mem).trans hT
  | recv htask | startWrite htask | signalReady htask => cases hover.task.symm.trans htask

/-- Every other pass stays within the table. -/
theorem Receiver.Inv.inTable (h : R.Inv) (hle : R.SS.min_file_nbr ≤ L.n_segments)
    (hs : R.Step L host i R' es) (hno : ¬R.Overrun L.n_segments i) :
    InTable L.n_segments es := by
  obtain ⟨-, hmin, hpass⟩ := step_iff.mp hs
  have hnonneg := h.min_nonneg
  have hlt : R.SS.min_file_nbr < L.n_segments := by omega
  cases hpass with
  | recv htask _ hgets =>
      cases hgets with
      | outside | known | first => exact inTable_of_forall_ne (by simp)
      | newest _ _ _ _ _ _ hstart =>
          exact inTable_append.mpr ⟨hstart.inTable (by rw [min_enter]; exact hnonneg)
            (by rw [min_enter]; exact hlt), inTable_of_forall_ne (by simp)⟩
  | startWrite htask hstart => exact hstart.inTable hnonneg hlt
  | signalReady htask => exact inTable_of_forall_ne (by simp)
  | write htask hwrites =>
      cases hwrites with
      | more => exact inTable_of_forall_ne (by simp)
      | last hS hw hmore hstart =>
          refine inTable_append.mpr ⟨inTable_of_forall_ne (by simp), fun f hf => ?_⟩
          obtain ⟨rfl, T, hT, hmode⟩ := hstart.lookedUp_iff.mp hf
          change 0 ≤ R.SS.min_file_nbr + 1 ∧ R.SS.min_file_nbr + 1 < L.n_segments
          refine ⟨by omega, ?_⟩
          by_contra hge
          have hlast : R.SS.min_file_nbr + 1 = L.n_segments := by omega
          have hends := (h.more_iff (nexttask_write htask) hS hw).mp hmore
          have hnext := (lookup_retire_next R _).symm.trans hT
          exact hno ⟨htask, hlast, ⟨_, hS, hends⟩, T, hlast ▸ hnext, hmode⟩

/-- A pass reads the table in range exactly when it is no such write. -/
theorem Receiver.Inv.inTable_iff (h : R.Inv) (hle : R.SS.min_file_nbr ≤ L.n_segments)
    (hs : R.Step L host i R' es) :
    InTable L.n_segments es ↔ ¬R.Overrun L.n_segments i := by
  refine ⟨fun hin hover => ?_, h.inTable hle hs⟩
  have := (hin _ (hover.lookedUp h hs)).2
  omega

/-- The window never moves beyond the list. -/
theorem min_le_of_run (hL : 1 ≤ L.n_segments) {ready_fd : ℤ}
    {t : List (Entry (Receiver M) Input Event)}
    (h : Run (Receiver.Step L host) (Receiver.init host ready_fd) t R) :
    R.SS.min_file_nbr ≤ L.n_segments := by
  induction h with
  | nil =>
      change (0 : ℤ) ≤ _
      omega
  | snoc hrun hstep ih =>
      have hmin := (step_iff.mp hstep).2.1
      rcases hstep.min_file_nbr (inv_of_run hrun) with heq | ⟨heq, -⟩ <;> omega

/-- In every run, over datagrams with arbitrary headers and whatever opening and writing
report, the window stays within the list, and the table is indexed in range exactly when no
pass is a write that ends the last segment of the list while the next one is released. -/
theorem table_in_range_iff (hL : 1 ≤ L.n_segments) {ready_fd : ℤ}
    {t : List (Entry (Receiver M) Input Event)}
    (h : Run (Receiver.Step L host) (Receiver.init host ready_fd) t R) :
    (InTable L.n_segments (events t) ∧ (∀ x ∈ t, x.before.SS.min_file_nbr ≤ L.n_segments) ∧
        R.SS.min_file_nbr ≤ L.n_segments) ↔
      ∀ x ∈ t, ¬x.before.Overrun L.n_segments x.input := by
  have hall : ∀ x ∈ t, x.before.SS.min_file_nbr ≤ L.n_segments ∧
      (InTable L.n_segments x.events ↔ ¬x.before.Overrun L.n_segments x.input) := by
    intro x hx
    obtain ⟨u, s', hrun, hstep⟩ := h.of_mem hx
    have hle := min_le_of_run hL hrun
    exact ⟨hle, (inv_of_run hrun).inTable_iff hle hstep⟩
  have hevents : InTable L.n_segments (events t) ↔ ∀ x ∈ t, InTable L.n_segments x.events := by
    simp only [InTable, events, List.mem_flatMap]
    constructor
    · exact fun hin x hx f hf => hin f ⟨x, hx, hf⟩
    · rintro hin f ⟨x, hx, hf⟩
      exact hin x hx f hf
  rw [hevents, and_iff_left ⟨fun x hx => (hall x hx).1, min_le_of_run hL h⟩]
  exact forall₂_congr fun x hx => (hall x hx).2

/-- A list of one entry: packets of three segments arrive, and the first one is written. -/
theorem exists_overrun :
    ∃ (n : ℕ) (t : List (Entry (Receiver Unit) Input Event)) (R R' : Receiver Unit)
      (es : List Event),
      Run (Receiver.Step (tinyList 1) refusingHost) (Receiver.init refusingHost (-1)) t R ∧
      t.map Entry.input = [0, 1, 2].map (fun f => recvInput (tinyDatagram f)) ++ [timeoutInput] ∧
      R.Overrun (tinyList 1).n_segments (writeInput n) ∧
      R.Step (tinyList 1) refusingHost (writeInput n) R' es := by
  obtain ⟨t, R, R₁, es₁, hrun, hinputs, -, hstep₁, hctl₁⟩ := tiny_timeout refusingHost
    refusingHost (n := 3) (by decide) (L := tinyList 1) (-1) [0, 1, 2] (by decide) (by decide) rfl
    (by decide) (by decide) (by decide) (by decide)
  have hrun₁ := (hrun.snoc hstep₁).mono fun _ _ _ _ hs => hs.2.2
  have hmin₁ : R₁.SS.min_file_nbr = 0 := congrArg Control.min hctl₁
  have hfd₁ : R₁.out_fd ≠ -1 := of_decide_eq_true (congrArg Control.writing hctl₁)
  obtain ⟨n, R₂, es₂, hstep₂, hctl₂⟩ := (inv_of_run hrun₁).exists_finish refusingHost
    (L := tinyList 1) hfd₁ (by rw [hmin₁]; decide)
  rw [hctl₁] at hctl₂
  have hmin₂ : R₂.SS.min_file_nbr = 1 := congrArg Control.min hctl₂
  refine ⟨n, _, R₁, R₂, es₂, hrun₁, by simp [hinputs], ?_, hstep₂⟩
  rcases hstep₂.min_file_nbr (inv_of_run hrun₁) with heq | ⟨-, htask, hends⟩
  · omega
  · refine ⟨htask, by rw [hmin₁]; rfl, hends, control_mode_eq_some.mp ?_⟩
    rw [hctl₁]
    decide

/-- That write reads the entry past the end. -/
theorem table_read_past_end :
    ∃ (n : ℕ) (t : List (Entry (Receiver Unit) Input Event)) (R : Receiver Unit),
      Run (Receiver.Step (tinyList 1) refusingHost) (Receiver.init refusingHost (-1)) t R ∧
      t.map Entry.input = [0, 1, 2].map (fun f => recvInput (tinyDatagram f)) ++
        [timeoutInput, writeInput n] ∧
      (tinyList 1).n_segments = 1 ∧ .lookedUp 1 ∈ events t := by
  obtain ⟨n, t, R, R', es, hrun, hinputs, hover, hstep⟩ := exists_overrun
  have hread := hover.lookedUp (inv_of_run hrun) hstep
  refine ⟨n, _, R', hrun.snoc hstep, by simp [hinputs], rfl, ?_⟩
  simp only [events_append, events_singleton]
  exact List.mem_append_right _ hread

/-- Up to that write both sides hold, and with it neither does. -/
theorem table_in_range_iff_tiny :
    ∃ (n : ℕ) (t : List (Entry (Receiver Unit) Input Event)) (R R' : Receiver Unit)
      (es : List Event),
      t.map Entry.input = [0, 1, 2].map (fun f => recvInput (tinyDatagram f)) ++ [timeoutInput] ∧
      R.Step (tinyList 1) refusingHost (writeInput n) R' es ∧
      InTable (tinyList 1).n_segments (events t) ∧
      ¬(InTable (tinyList 1).n_segments (events (t ++ [⟨R, writeInput n, es⟩])) ∧
        (∀ x ∈ t ++ [⟨R, writeInput n, es⟩], x.before.SS.min_file_nbr ≤ (tinyList 1).n_segments) ∧
        R'.SS.min_file_nbr ≤ (tinyList 1).n_segments) := by
  obtain ⟨n, t, R, R', es, hrun, hinputs, hover, hstep⟩ := exists_overrun
  refine ⟨n, t, R, R', es, hinputs, hstep, ?_, ?_⟩
  · refine ((table_in_range_iff (by decide) hrun).mpr fun x hx hno => ?_).1
    have hmem := List.mem_map_of_mem (f := Entry.input) hx
    rw [hinputs] at hmem
    have htask := hno.task
    rcases List.mem_append.mp hmem with hrecv | hlast
    · obtain ⟨f, -, hf⟩ := List.mem_map.mp hrecv
      rw [← hf, nexttask_recvInput] at htask
      cases htask
    · rw [List.mem_singleton.mp hlast] at htask
      by_cases hfd : x.before.out_fd = -1
      · rw [nexttask_timeoutInput hfd] at htask
        cases htask
      · simp [nexttask, timeoutInput, check, hfd] at htask
  · intro hall
    exact (table_in_range_iff (by decide) (hrun.snoc hstep)).mp hall _
      (List.mem_append_right _ List.mem_cons_self) hover

end RqRoute
