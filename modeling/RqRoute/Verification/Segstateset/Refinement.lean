import RqRoute.Library.SlidingMap
import RqRoute.Library.Transition
import RqRoute.Verification.Codec.Contract
import RqRoute.Verification.Segstate.Receive
import RqRoute.Verification.Segstateset.Window

/-! # The ring refines a sliding map

The operations on the ring, in the order in which the receive loop may make them, against the
same operations on a partial map from file numbers to segments. -/

namespace RqRoute

open Checked Segstateset Transition

variable {M : Type}

/-- What `receive_write` and `task_write` do with the ring. -/
inductive SetOp where
  | get (file_nbr : ℤ)
  /-- `segstate_init`, which leaves `S`, and `segstateset_mark_initialized` -/
  | markInitialized (file_nbr : ℤ) (S : Segstate)
  /-- a function of `segstate.c` is called on the pointer, and leaves `S` -/
  | assign (file_nbr : ℤ) (S : Segstate)
  | markReadytowrite (file_nbr : ℤ)
  /-- `segstate_free` of the minimum and `segstateset_inc_min_file_nbr` -/
  | retire
  /-- `segstateset_inc_min_file_nbr` of a segment that was never received -/
  | skip

/-- One operation on the ring, under the status on which the callers make it; it shows the
statuses that `segstateset_get` returned. -/
inductive SetStep (host : Host M) (SS : Segstateset) :
    SetOp → Segstateset → List SegstateStatus → Prop
  | get (f : ℤ) : SetStep host SS (.get f) SS [(segstatesetGet SS f).1]
  | markInitialized {f : ℤ} {idx : Fin segstateSetN} {file_len : ℕ} {S : Segstate}
      {status : SegstateStatus} {SS' : Segstateset}
      (hget : segstatesetGet SS f = (.uninitialized, some idx))
      (hinit : segstateInit host f file_len = .ok S)
      (hmark : segstatesetMarkInitialized (SS.setSlot idx S) f = .ok (status, SS')) :
      SetStep host SS (.markInitialized f S) SS' [.uninitialized]
  | assign {f : ℤ} {idx : Fin segstateSetN} {S : Segstate}
      (hget : segstatesetGet SS f = (.ok, some idx)) (hS : S.file_nbr = f) :
      SetStep host SS (.assign f S) (SS.setSlot idx S) [.ok]
  | markReadytowrite (n : ℤ) :
      SetStep host SS (.markReadytowrite n) (segstatesetMarkReadytowrite SS n) []
  | retire {idx : Fin segstateSetN}
      (hget : segstatesetGet SS (segstatesetGetMinFileNbr SS) = (.ok, some idx)) :
      SetStep host SS .retire
        (segstatesetIncMinFileNbr (SS.setSlot idx (segstateFree (SS.states idx)))) [.ok]
  | skip (hget : (segstatesetGet SS (segstatesetGetMinFileNbr SS)).1 = .uninitialized) :
      SetStep host SS .skip (segstatesetIncMinFileNbr SS) [.uninitialized]

/-- The same operation on the map. -/
def SetOp.apply (A : SlidingMap segstateSetN Segstate) : SetOp → SlidingMap segstateSetN Segstate
  | .get _ => A
  | .markInitialized f S | .assign f S => A.store f S
  | .markReadytowrite n => A.mapValues (markReady n)
  | .retire | .skip => A.advance

/-- The ring stands for the map. -/
structure Segstateset.StandsFor (SS : Segstateset) (A : SlidingMap segstateSetN Segstate) :
    Prop where
  placed : SS.Placed
  min_eq : SS.min_file_nbr = A.min
  lookup_eq : ∀ f, SS.lookup f = A.get f

theorem file_nbr_of_segstateInit {host : Host M} {file_nbr : ℤ} {file_len : ℕ} {S : Segstate}
    (h : segstateInit host file_nbr file_len = .ok S) : S.file_nbr = file_nbr := by
  obtain ⟨P, -, hS⟩ := bind_eq_ok.mp h
  rw [← Except.ok.inj hS]

namespace Segstateset.StandsFor

variable {SS : Segstateset} {A : SlidingMap segstateSetN Segstate}

theorem empty (m : ℤ) : (segstatesetInit m).StandsFor (.empty m) :=
  ⟨placed_segstatesetInit m, rfl, lookup_segstatesetInit m⟩

theorem inWindow_iff (h : SS.StandsFor A) {f : ℤ} : SS.InWindow f ↔ A.InWindow f := by
  rw [Segstateset.InWindow, h.min_eq]
  rfl

theorem put (h : SS.StandsFor A) {f : ℤ} {S : Segstate} (hin : SS.InWindow f)
    (hS : S.file_nbr = f) : (SS.put f S).StandsFor (A.store f S) := by
  refine ⟨h.placed.put hin hS, h.min_eq, fun g => ?_⟩
  rw [lookup_put hin, SlidingMap.get_store (h.inWindow_iff.mp hin), h.lookup_eq]

theorem markReadytowrite (h : SS.StandsFor A) (n : ℤ) :
    (segstatesetMarkReadytowrite SS n).StandsFor (A.mapValues (markReady n)) := by
  refine ⟨h.placed.markReadytowrite n, h.min_eq, fun f => ?_⟩
  rw [lookup_markReadytowrite, SlidingMap.get_mapValues, h.lookup_eq]

theorem incMinFileNbr (h : SS.StandsFor A) :
    (segstatesetIncMinFileNbr SS).StandsFor A.advance := by
  refine ⟨h.placed.incMinFileNbr, by simp [h.min_eq], fun f => ?_⟩
  rw [lookup_incMinFileNbr, SlidingMap.get_advance, h.min_eq, h.lookup_eq]

/-- Every operation does to the map what it does to the ring. -/
theorem step {host : Host M} (h : SS.StandsFor A) {op : SetOp} {SS' : Segstateset}
    {es : List SegstateStatus} (hs : SetStep host SS op SS' es) : SS'.StandsFor (op.apply A) := by
  cases hs with
  | get f => exact h
  | markInitialized hget hinit hmark =>
      obtain ⟨hin, hnone⟩ := get_eq_uninitialized_iff.mp (congrArg Prod.fst hget)
      have hsame := (get_of_lookup_none hin hnone).symm.trans hget
      obtain rfl := Option.some.inj (congrArg Prod.snd hsame)
      rw [markInitialized_setSlot hin hnone] at hmark
      obtain ⟨-, rfl⟩ := Prod.mk.inj (Except.ok.inj hmark)
      exact h.put hin (file_nbr_of_segstateInit hinit)
  | assign hget hS =>
      obtain ⟨hlook, rfl⟩ := get_eq_ok_iff.mp hget
      rw [setSlot_eq_put hlook]
      exact h.put (lookup_inWindow hlook) hS
  | markReadytowrite n => exact h.markReadytowrite n
  | retire hget =>
      rw [segstatesetGetMinFileNbr] at hget
      obtain ⟨hlook, rfl⟩ := get_eq_ok_iff.mp hget
      have hin := lookup_inWindow hlook
      have hnbr := h.placed.file_nbr hlook
      have hput := (h.put (S := segstateFree (SS.states (slotIndex SS SS.min_file_nbr))) hin
        hnbr).incMinFileNbr
      rw [← setSlot_eq_put hlook] at hput
      refine ⟨hput.placed, hput.min_eq, fun g => ?_⟩
      rw [hput.lookup_eq, SlidingMap.get_advance, SlidingMap.min_store,
        SlidingMap.get_store (h.inWindow_iff.mp hin), SetOp.apply, SlidingMap.get_advance,
        h.min_eq]
      split <;> rfl
  | skip => exact h.incMinFileNbr

end Segstateset.StandsFor

/-! ## What the operations show of the map -/

/-- What `segstateset_get` returns for every file number, and where the segments lie. -/
structure Segstateset.Shows (SS : Segstateset) (A : SlidingMap segstateSetN Segstate) : Prop where
  ok_iff : ∀ f S, (∃ idx, segstatesetGet SS f = (.ok, some idx) ∧ SS.states idx = S) ↔
    A.get f = some S
  uninitialized_iff : ∀ f, (segstatesetGet SS f).1 = .uninitialized ↔
    A.InWindow f ∧ A.get f = none
  belowMin_iff : ∀ f, (segstatesetGet SS f).1 = .belowMin ↔ f < A.min
  aboveMax_iff : ∀ f, (segstatesetGet SS f).1 = .aboveMax ↔ A.min + segstateSetN ≤ f
  slots_ne : ∀ f g, A.InWindow f → A.InWindow g → f ≠ g →
    (segstatesetGet SS f).2 ≠ (segstatesetGet SS g).2
  file_nbr : ∀ i, SS.states_initialized i →
    segstatesetGet SS (SS.states i).file_nbr = (.ok, some i)
  marks : ∀ n i, (∃ f, segstatesetGet SS f = (.ok, some i) ∧ (SS.states i).mode = .receiving ∧
    f < n) → (segstatesetMarkReadytowrite SS n).states i = segstateReadyForWrite (SS.states i)
  leaves : ∀ n i, ¬(∃ f, segstatesetGet SS f = (.ok, some i) ∧ (SS.states i).mode = .receiving ∧
    f < n) → (segstatesetMarkReadytowrite SS n).states i = SS.states i

theorem Segstateset.StandsFor.shows {SS : Segstateset} {A : SlidingMap segstateSetN Segstate}
    (h : SS.StandsFor A) : SS.Shows A := by
  -- the test of the loop, with the number under which the slot is found
  have htest : ∀ n i, (SS.states_initialized i = true ∧ (SS.states i).mode = .receiving ∧
      (SS.states i).file_nbr < n) ↔
      ∃ f, segstatesetGet SS f = (.ok, some i) ∧ (SS.states i).mode = .receiving ∧ f < n := by
    intro n i
    constructor
    · rintro ⟨hi, hmode, hlt⟩
      exact ⟨_, h.placed.get_file_nbr hi, hmode, hlt⟩
    · rintro ⟨f, hget, hmode, hlt⟩
      obtain ⟨hlook, rfl⟩ := get_eq_ok_iff.mp hget
      refine ⟨(lookup_eq_some_iff.mp hlook).2.1, hmode, ?_⟩
      rwa [h.placed.file_nbr hlook]
  refine ⟨fun f S => ?_, fun f => ?_, fun f => ?_, fun f => ?_, fun f g hf hg hne hslots => ?_,
    fun i hi => h.placed.get_file_nbr hi, fun n i hmarked => ?_, fun n i hleft => ?_⟩
  · rw [← h.lookup_eq]
    constructor
    · rintro ⟨idx, hget, rfl⟩
      exact (get_eq_ok_iff.mp hget).1
    · intro hS
      exact ⟨_, get_of_lookup_some hS, states_of_lookup hS⟩
  · rw [get_eq_uninitialized_iff, h.inWindow_iff, h.lookup_eq]
  · rw [get_eq_belowMin_iff, h.min_eq]
  · rw [get_eq_aboveMax_iff, h.min_eq]
  · rw [← h.inWindow_iff] at hf hg
    rw [snd_get hf, snd_get hg] at hslots
    exact hne (slotIndex_injective hf hg (Option.some.inj hslots))
  · exact if_pos ((htest n i).mpr hmarked)
  · exact if_neg ((htest n i).not.mpr hleft)

/-- The map after some operations. -/
def mapAfter (m : ℤ) (ops : List SetOp) : SlidingMap segstateSetN Segstate :=
  ops.foldl SetOp.apply (.empty m)

section
variable {host : Host M} {m : ℤ} {SS : Segstateset}
  {t : List (Entry Segstateset SetOp SegstateStatus)}

theorem standsFor_of_run (h : Run (SetStep host) (segstatesetInit m) t SS) :
    SS.StandsFor (mapAfter m (t.map Entry.input)) := by
  induction h with
  | nil => exact .empty m
  | snoc _ hs ih =>
      rw [List.map_append, mapAfter, List.foldl_append]
      exact ih.step hs

/-- The segments of the map are those that were initialised and have not been passed. -/
theorem get_mapAfter_ne_none_iff (h : Run (SetStep host) (segstatesetInit m) t SS) (f : ℤ) :
    (mapAfter m (t.map Entry.input)).get f ≠ none ↔
      (∃ S, .markInitialized f S ∈ t.map Entry.input) ∧
        (mapAfter m (t.map Entry.input)).min ≤ f := by
  induction h with
  | nil => simp [mapAfter]
  | @snoc t SS SS' op es hrun hs ih =>
      have hst := standsFor_of_run hrun
      rw [List.map_append, mapAfter, List.foldl_append]
      change (op.apply (mapAfter m (t.map Entry.input))).get f ≠ none ↔
        _ ∧ (op.apply (mapAfter m (t.map Entry.input))).min ≤ f
      generalize mapAfter m (t.map Entry.input) = A at ih hst
      -- an operation that initialises nothing adds nothing to the right side
      have hother : (∀ g S, op ≠ .markInitialized g S) →
          ((∃ S, .markInitialized f S ∈ t.map Entry.input ++ [op]) ↔
            ∃ S, .markInitialized f S ∈ t.map Entry.input) := by
        intro hne
        refine exists_congr fun S => ?_
        rw [List.mem_append, List.mem_singleton, or_iff_left fun heq => hne f S heq.symm]
      rw [List.map_singleton]
      cases hs with
      | get g =>
          rw [hother (by simp)]
          exact ih
      | markReadytowrite n =>
          rw [hother (by simp), SetOp.apply, SlidingMap.get_mapValues, SlidingMap.min_mapValues,
            ← ih]
          simp
      | @markInitialized g _ _ S _ _ hget =>
          obtain ⟨hin, -⟩ := get_eq_uninitialized_iff.mp (congrArg Prod.fst hget)
          rw [hst.inWindow_iff] at hin
          rw [SetOp.apply, SlidingMap.get_store hin, SlidingMap.min_store]
          by_cases hfg : f = g
          · subst hfg
            rw [if_pos rfl]
            exact iff_of_true (by simp) ⟨⟨S, by simp⟩, hin.1⟩
          · rw [if_neg hfg, ih]
            refine and_congr_left fun _ => exists_congr fun T => ?_
            simp [hfg]
      | @assign g _ S hget =>
          obtain ⟨hlook, -⟩ := get_eq_ok_iff.mp hget
          have hin := hst.inWindow_iff.mp (lookup_inWindow hlook)
          rw [hst.lookup_eq] at hlook
          rw [hother (by simp), SetOp.apply, SlidingMap.get_store hin, SlidingMap.min_store, ← ih]
          by_cases hfg : f = g
          · simp [hfg, hlook]
          · rw [if_neg hfg]
      | retire | skip =>
          rw [hother (by simp), SetOp.apply, SlidingMap.get_advance, SlidingMap.min_advance]
          by_cases hmin : f = A.min
          · rw [if_pos hmin]
            exact iff_of_false (by simp) fun hle => by omega
          · rw [if_neg hmin, ih]
            exact and_congr_right fun _ => by omega

/-- In every state that the operations reach from an empty ring, the ring shows the sliding map
that the same operations make; and its segments are those that were initialised and have not
been passed. -/
theorem ring_refines_map (h : Run (SetStep host) (segstatesetInit m) t SS) :
    SS.Shows (mapAfter m (t.map Entry.input)) ∧
      ∀ f, (segstatesetGet SS f).1 = .ok ↔
        (∃ S, .markInitialized f S ∈ t.map Entry.input) ∧ SS.min_file_nbr ≤ f := by
  have hst := standsFor_of_run h
  refine ⟨hst.shows, fun f => ?_⟩
  rw [hst.min_eq, ← get_mapAfter_ne_none_iff h, ← hst.lookup_eq]
  constructor
  · intro hok hnone
    rcases get_cases SS f with ⟨-, hget⟩ | ⟨-, hget⟩ | ⟨-, -, hget⟩ | ⟨-, hS, -⟩
    all_goals simp_all
  · intro hne
    obtain ⟨S, hS⟩ := Option.ne_none_iff_exists'.mp hne
    rw [get_of_lookup_some hS]

end

/-- Segment 8 is received and released, and segment 7 is given up. -/
theorem ring_refines_map_gap :
    ∃ (SS : Segstateset) (t : List (Entry Segstateset SetOp SegstateStatus)),
      Run (SetStep refusingHost) (segstatesetInit 7) t SS ∧
      t.map Entry.input = [.markInitialized 8 (initialSegment refusingHost 8 1),
        .markReadytowrite 9, .skip] ∧
      SS.Shows (mapAfter 7 (t.map Entry.input)) := by
  have hinit : segstateInit refusingHost 8 1 = .ok (initialSegment refusingHost 8 1) :=
    (segstateInit_eq_ok_iff (by decide)).mpr ⟨by decide, rfl⟩
  have hget : segstatesetGet (segstatesetInit 7) 8 = (.uninitialized, some 1) := rfl
  have hfirst : SetStep refusingHost (segstatesetInit 7)
      (.markInitialized 8 (initialSegment refusingHost 8 1)) _ _ :=
    .markInitialized hget hinit
      (markInitialized_setSlot (by decide) (lookup_segstatesetInit 7 8) _)
  have hrun := ((Run.nil.snoc hfirst).snoc (.markReadytowrite 9)).snoc (.skip rfl)
  exact ⟨_, _, hrun, rfl, (ring_refines_map hrun).1⟩

end RqRoute
