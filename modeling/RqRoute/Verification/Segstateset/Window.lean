import RqRoute.Model.Segstateset

/-! # The ring as a sliding window

The ring stands for a partial map from the file numbers of its window to segments.
Each operation is described by what it does to that map. -/

namespace RqRoute

open Checked

namespace Segstateset

/-- The file numbers that have a slot. -/
def InWindow (SS : Segstateset) (f : ℤ) : Prop :=
  SS.min_file_nbr ≤ f ∧ f < SS.min_file_nbr + segstateSetN

instance (SS : Segstateset) (f : ℤ) : Decidable (SS.InWindow f) :=
  inferInstanceAs (Decidable (_ ∧ _))

/-- The segment stored under a file number. -/
def lookup (SS : Segstateset) (f : ℤ) : Option Segstate :=
  if SS.InWindow f ∧ SS.states_initialized (slotIndex SS f) then
    some (SS.states (slotIndex SS f))
  else none

/-- Every initialised slot holds the segment it is looked up under. -/
def Placed (SS : Segstateset) : Prop :=
  ∀ i, SS.states_initialized i → ∃ f, SS.InWindow f ∧ slotIndex SS f = i ∧
    (SS.states i).file_nbr = f

/-- Store a segment under a file number of the window. -/
def put (SS : Segstateset) (f : ℤ) (S : Segstate) : Segstateset :=
  { SS with
    states := Function.update SS.states (slotIndex SS f) S
    states_initialized := Function.update SS.states_initialized (slotIndex SS f) true }

/-! ## Slots -/

theorem inWindow_iff {SS : Segstateset} {f : ℤ} :
    SS.InWindow f ↔ SS.min_file_nbr ≤ f ∧ f < SS.min_file_nbr + 4 := Iff.rfl

theorem inWindow_min (SS : Segstateset) : SS.InWindow SS.min_file_nbr := by
  rw [inWindow_iff]
  omega

theorem first_lt (SS : Segstateset) : SS.first_index_in_array.val < 4 :=
  SS.first_index_in_array.isLt

theorem val_slotIndex (SS : Segstateset) (f : ℤ) :
    (slotIndex SS f).val =
      ((f - SS.min_file_nbr).toNat + SS.first_index_in_array.val) % 4 := rfl

/-- Two numbers of the window never share a slot. -/
theorem slotIndex_injective {SS : Segstateset} {f g : ℤ} (hf : SS.InWindow f)
    (hg : SS.InWindow g) (h : slotIndex SS f = slotIndex SS g) : f = g := by
  have hval := congrArg Fin.val h
  rw [val_slotIndex, val_slotIndex] at hval
  rw [inWindow_iff] at hf hg
  omega

theorem lookup_inWindow {SS : Segstateset} {f : ℤ} {S : Segstate} (h : SS.lookup f = some S) :
    SS.InWindow f := by
  unfold lookup at h
  split at h
  · rename_i hw
    exact hw.1
  · cases h

theorem lookup_of_not_inWindow {SS : Segstateset} {f : ℤ} (h : ¬SS.InWindow f) :
    SS.lookup f = none := if_neg fun hw => h hw.1

theorem lookup_eq_some_iff {SS : Segstateset} {f : ℤ} {S : Segstate} :
    SS.lookup f = some S ↔ SS.InWindow f ∧ SS.states_initialized (slotIndex SS f) = true ∧
      SS.states (slotIndex SS f) = S := by
  unfold lookup
  split <;> simp_all

/-- The segment in an initialised slot is found under its own number. -/
theorem Placed.lookup_states {SS : Segstateset} (h : SS.Placed) {i : Fin segstateSetN}
    (hi : SS.states_initialized i) :
    SS.lookup (SS.states i).file_nbr = some (SS.states i) := by
  obtain ⟨f, hw, rfl, hf⟩ := h i hi
  rw [hf]
  exact lookup_eq_some_iff.mpr ⟨hw, hi, rfl⟩

theorem Placed.file_nbr {SS : Segstateset} (h : SS.Placed) {f : ℤ} {S : Segstate}
    (hS : SS.lookup f = some S) : S.file_nbr = f := by
  obtain ⟨hw, hi, rfl⟩ := lookup_eq_some_iff.mp hS
  obtain ⟨g, hg, hslot, hnbr⟩ := h _ hi
  rw [hnbr]
  exact slotIndex_injective hg hw hslot

/-! ## Looking up -/

theorem get_of_lookup_some {SS : Segstateset} {f : ℤ} {S : Segstate}
    (h : SS.lookup f = some S) : segstatesetGet SS f = (.ok, some (slotIndex SS f)) := by
  obtain ⟨hw, hi, -⟩ := lookup_eq_some_iff.mp h
  unfold InWindow at hw
  simp only [segstatesetGet, getInternalIndex]
  rw [if_neg (by omega), if_neg (by omega), hi, if_pos rfl]

theorem get_of_lookup_none {SS : Segstateset} {f : ℤ} (hw : SS.InWindow f)
    (h : SS.lookup f = none) : segstatesetGet SS f = (.uninitialized, some (slotIndex SS f)) := by
  have hi : SS.states_initialized (slotIndex SS f) = false := by
    by_contra hi
    simp [lookup, hw, hi] at h
  unfold InWindow at hw
  simp only [segstatesetGet, getInternalIndex]
  rw [if_neg (by omega), if_neg (by omega), hi, if_neg Bool.false_ne_true]

theorem get_of_lt {SS : Segstateset} {f : ℤ} (h : f < SS.min_file_nbr) :
    segstatesetGet SS f = (.belowMin, none) := if_pos h

theorem get_of_ge {SS : Segstateset} {f : ℤ} (h : SS.min_file_nbr + segstateSetN ≤ f) :
    segstatesetGet SS f = (.aboveMax, none) := by
  simp only [segstatesetGet, getInternalIndex]
  rw [if_neg (by omega), if_pos h]

theorem states_of_lookup {SS : Segstateset} {f : ℤ} {S : Segstate} (h : SS.lookup f = some S) :
    SS.states (slotIndex SS f) = S := (lookup_eq_some_iff.mp h).2.2

/-- What `segstateset_get` returns, in terms of the map. -/
theorem get_cases (SS : Segstateset) (f : ℤ) :
    (f < SS.min_file_nbr ∧ segstatesetGet SS f = (.belowMin, none)) ∨
    (SS.min_file_nbr + segstateSetN ≤ f ∧ segstatesetGet SS f = (.aboveMax, none)) ∨
    (SS.InWindow f ∧ SS.lookup f = none ∧
      segstatesetGet SS f = (.uninitialized, some (slotIndex SS f))) ∨
    (SS.InWindow f ∧ SS.lookup f = some (SS.states (slotIndex SS f)) ∧
      segstatesetGet SS f = (.ok, some (slotIndex SS f))) := by
  by_cases hlow : f < SS.min_file_nbr
  · exact .inl ⟨hlow, get_of_lt hlow⟩
  · by_cases hhigh : SS.min_file_nbr + segstateSetN ≤ f
    · exact .inr (.inl ⟨hhigh, get_of_ge hhigh⟩)
    · have hin : SS.InWindow f := ⟨by omega, by omega⟩
      cases hS : SS.lookup f with
      | none => exact .inr (.inr (.inl ⟨hin, rfl, get_of_lookup_none hin hS⟩))
      | some S =>
          refine .inr (.inr (.inr ⟨hin, ?_, get_of_lookup_some hS⟩))
          rw [states_of_lookup hS]

theorem get_eq_ok_iff {SS : Segstateset} {f : ℤ} {idx : Fin segstateSetN} :
    segstatesetGet SS f = (.ok, some idx) ↔
      SS.lookup f = some (SS.states idx) ∧ slotIndex SS f = idx := by
  constructor
  · intro h
    rcases get_cases SS f with ⟨-, hget⟩ | ⟨-, hget⟩ | ⟨-, -, hget⟩ | ⟨-, hS, hget⟩
    all_goals
      rw [h] at hget
      cases hget
    exact ⟨hS, rfl⟩
  · rintro ⟨hS, rfl⟩
    exact get_of_lookup_some hS

theorem get_eq_uninitialized_iff {SS : Segstateset} {f : ℤ} :
    (segstatesetGet SS f).1 = .uninitialized ↔ SS.InWindow f ∧ SS.lookup f = none := by
  constructor
  · intro h
    rcases get_cases SS f with ⟨-, hget⟩ | ⟨-, hget⟩ | ⟨hin, hnone, -⟩ | ⟨-, -, hget⟩
    · rw [hget] at h
      cases h
    · rw [hget] at h
      cases h
    · exact ⟨hin, hnone⟩
    · rw [hget] at h
      cases h
  · rintro ⟨hin, hnone⟩
    rw [get_of_lookup_none hin hnone]

theorem get_eq_belowMin_iff {SS : Segstateset} {f : ℤ} :
    (segstatesetGet SS f).1 = .belowMin ↔ f < SS.min_file_nbr := by
  have hin : SS.InWindow f → ¬f < SS.min_file_nbr := fun h => by
    have := h.1
    omega
  rcases get_cases SS f with ⟨hlt, hget⟩ | ⟨hge, hget⟩ | ⟨h, -, hget⟩ | ⟨h, -, hget⟩ <;> rw [hget]
  · exact iff_of_true rfl hlt
  · exact iff_of_false (by simp) (by omega)
  · exact iff_of_false (by simp) (hin h)
  · exact iff_of_false (by simp) (hin h)

theorem get_eq_aboveMax_iff {SS : Segstateset} {f : ℤ} :
    (segstatesetGet SS f).1 = .aboveMax ↔ SS.min_file_nbr + segstateSetN ≤ f := by
  have hin : SS.InWindow f → ¬SS.min_file_nbr + segstateSetN ≤ f := fun h => by
    have := h.2
    omega
  rcases get_cases SS f with ⟨hlt, hget⟩ | ⟨hge, hget⟩ | ⟨h, -, hget⟩ | ⟨h, -, hget⟩ <;> rw [hget]
  · exact iff_of_false (by simp) (by omega)
  · exact iff_of_true rfl hge
  · exact iff_of_false (by simp) (hin h)
  · exact iff_of_false (by simp) (hin h)

/-- The numbers of the window get a slot. -/
theorem snd_get {SS : Segstateset} {f : ℤ} (h : SS.InWindow f) :
    (segstatesetGet SS f).2 = some (slotIndex SS f) := by
  unfold InWindow at h
  simp only [segstatesetGet, getInternalIndex]
  rw [if_neg (by omega), if_neg (by omega)]

/-- An initialised slot is what `segstateset_get` finds under the number of its segment. -/
theorem Placed.get_file_nbr {SS : Segstateset} (h : SS.Placed) {i : Fin segstateSetN}
    (hi : SS.states_initialized i) :
    segstatesetGet SS (SS.states i).file_nbr = (.ok, some i) := by
  refine get_eq_ok_iff.mpr ⟨h.lookup_states hi, ?_⟩
  obtain ⟨f, -, hslot, hnbr⟩ := h i hi
  rw [hnbr, hslot]

/-! ## The empty ring -/

@[simp] theorem min_segstatesetInit (m : ℤ) : (segstatesetInit m).min_file_nbr = m := rfl

@[simp] theorem lookup_segstatesetInit (m f : ℤ) : (segstatesetInit m).lookup f = none :=
  if_neg fun h => Bool.false_ne_true h.2

theorem placed_segstatesetInit (m : ℤ) : (segstatesetInit m).Placed :=
  fun _ h => absurd h Bool.false_ne_true

/-! ## Storing -/

@[simp] theorem min_put (SS : Segstateset) (f : ℤ) (S : Segstate) :
    (SS.put f S).min_file_nbr = SS.min_file_nbr := rfl

@[simp] theorem inWindow_put (SS : Segstateset) (f g : ℤ) (S : Segstate) :
    (SS.put f S).InWindow g ↔ SS.InWindow g := Iff.rfl

@[simp] theorem slotIndex_put (SS : Segstateset) (f g : ℤ) (S : Segstate) :
    slotIndex (SS.put f S) g = slotIndex SS g := rfl

theorem lookup_put {SS : Segstateset} {f : ℤ} (hw : SS.InWindow f) (S : Segstate) (g : ℤ) :
    (SS.put f S).lookup g = if g = f then some S else SS.lookup g := by
  by_cases hgf : g = f
  · subst g
    rw [if_pos rfl]
    exact lookup_eq_some_iff.mpr ⟨hw, Function.update_self .., Function.update_self ..⟩
  · rw [if_neg hgf]
    by_cases hwg : SS.InWindow g
    · have hslot : slotIndex SS g ≠ slotIndex SS f := fun h => hgf (slotIndex_injective hwg hw h)
      have hg : ∀ (α : Type) (t : Fin segstateSetN → α) (a : α),
          Function.update t (slotIndex SS f) a (slotIndex SS g) = t (slotIndex SS g) :=
        fun α t a => Function.update_of_ne hslot a t
      simp only [lookup, inWindow_put, slotIndex_put]
      simp only [put, hg]
    · rw [lookup_of_not_inWindow (by simpa using hwg), lookup_of_not_inWindow hwg]

@[simp] theorem lookup_put_self {SS : Segstateset} {f : ℤ} (hw : SS.InWindow f) (S : Segstate) :
    (SS.put f S).lookup f = some S := by
  rw [lookup_put hw, if_pos rfl]

theorem lookup_put_of_ne {SS : Segstateset} {f g : ℤ} (hw : SS.InWindow f) (S : Segstate)
    (h : g ≠ f) : (SS.put f S).lookup g = SS.lookup g := by
  rw [lookup_put hw, if_neg h]

theorem Placed.put {SS : Segstateset} (h : SS.Placed) {f : ℤ} {S : Segstate}
    (hw : SS.InWindow f) (hS : S.file_nbr = f) : (SS.put f S).Placed := by
  intro i hi
  by_cases hslot : i = slotIndex SS f
  · subst i
    exact ⟨f, hw, rfl, by simpa [Segstateset.put] using hS⟩
  · have hi' : SS.states_initialized i := by simpa [Segstateset.put, hslot] using hi
    obtain ⟨g, hg, hgi, hnbr⟩ := h i hi'
    exact ⟨g, hg, hgi, by simpa [Segstateset.put, hslot] using hnbr⟩

/-- Assigning to the slot of a segment that is there already. -/
theorem setSlot_eq_put {SS : Segstateset} {f : ℤ} {S : Segstate} (h : SS.lookup f = some S)
    (S' : Segstate) : SS.setSlot (slotIndex SS f) S' = SS.put f S' := by
  obtain ⟨-, hi, -⟩ := lookup_eq_some_iff.mp h
  unfold setSlot put
  congr
  exact (Function.update_eq_self_iff.mpr hi.symm).symm

/-- Assigning to a free slot and marking it initialised. -/
theorem markInitialized_setSlot {SS : Segstateset} {f : ℤ} (hw : SS.InWindow f)
    (h : SS.lookup f = none) (S : Segstate) :
    segstatesetMarkInitialized (SS.setSlot (slotIndex SS f) S) f = .ok (.ok, SS.put f S) := by
  have hfree : segstatesetGet SS f = (.uninitialized, some (slotIndex SS f)) :=
    get_of_lookup_none hw h
  have hget : getInternalIndex (SS.setSlot (slotIndex SS f) S) f =
      (.uninitialized, some (slotIndex SS f)) := hfree
  rw [segstatesetMarkInitialized]
  simp only [hget]
  rw [check_bind (by decide)]
  rfl

/-! ## Marking segments ready -/

/-- What `segstateset_mark_readytowrite` makes of a segment. -/
def markReady (n : ℤ) (S : Segstate) : Segstate :=
  if S.mode = .receiving ∧ S.file_nbr < n then segstateReadyForWrite S else S

@[simp] theorem min_markReadytowrite (SS : Segstateset) (n : ℤ) :
    (segstatesetMarkReadytowrite SS n).min_file_nbr = SS.min_file_nbr := rfl

@[simp] theorem inWindow_markReadytowrite (SS : Segstateset) (n f : ℤ) :
    (segstatesetMarkReadytowrite SS n).InWindow f ↔ SS.InWindow f := Iff.rfl

@[simp] theorem file_nbr_markReady (n : ℤ) (S : Segstate) :
    (markReady n S).file_nbr = S.file_nbr := by
  unfold markReady
  split <;> rfl

/-- It changes exactly the segments that are received and numbered below `n`. -/
theorem lookup_markReadytowrite (SS : Segstateset) (n f : ℤ) :
    (segstatesetMarkReadytowrite SS n).lookup f = (SS.lookup f).map (markReady n) := by
  by_cases h : SS.InWindow f ∧ SS.states_initialized (slotIndex SS f)
  · have hnew : (segstatesetMarkReadytowrite SS n).InWindow f ∧
        (segstatesetMarkReadytowrite SS n).states_initialized
          (slotIndex (segstatesetMarkReadytowrite SS n) f) := h
    rw [lookup, if_pos hnew, lookup, if_pos h, Option.map_some]
    change some (markReadySlot SS n (slotIndex SS f)) = _
    simp [markReadySlot, markReady, segstateGetMode, h.2]
  · have hnew : ¬((segstatesetMarkReadytowrite SS n).InWindow f ∧
        (segstatesetMarkReadytowrite SS n).states_initialized
          (slotIndex (segstatesetMarkReadytowrite SS n) f)) := h
    rw [lookup, if_neg hnew, lookup, if_neg h, Option.map_none]

theorem Placed.markReadytowrite {SS : Segstateset} (h : SS.Placed) (n : ℤ) :
    (segstatesetMarkReadytowrite SS n).Placed := by
  intro i hi
  obtain ⟨f, hw, hslot, hnbr⟩ := h i hi
  refine ⟨f, hw, hslot, ?_⟩
  change (markReadySlot SS n i).file_nbr = f
  rw [← hnbr]
  unfold markReadySlot
  split <;> rfl

/-! ## Advancing the window -/

@[simp] theorem min_incMinFileNbr (SS : Segstateset) :
    (segstatesetIncMinFileNbr SS).min_file_nbr = SS.min_file_nbr + 1 := rfl

/-- The numbers that stay in the window keep their slots. -/
theorem slotIndex_incMinFileNbr {SS : Segstateset} {f : ℤ} (h : SS.min_file_nbr < f) :
    slotIndex (segstatesetIncMinFileNbr SS) f = slotIndex SS f := by
  apply Fin.ext
  rw [val_slotIndex, val_slotIndex]
  have hfirst : (segstatesetIncMinFileNbr SS).first_index_in_array.val =
      (SS.first_index_in_array.val + 1) % 4 := by
    have hlt := SS.first_lt
    simp only [segstatesetIncMinFileNbr, segstateSetN]
    split <;> simp only [Fin.val_zero] <;> omega
  rw [hfirst, min_incMinFileNbr]
  omega

theorem slotIndex_min (SS : Segstateset) :
    slotIndex SS SS.min_file_nbr = SS.first_index_in_array := by
  apply Fin.ext
  have hlt := SS.first_lt
  rw [val_slotIndex]
  omega

/-- The number that enters the window takes over the slot of the one that leaves. -/
theorem slotIndex_incMinFileNbr_last (SS : Segstateset) :
    slotIndex (segstatesetIncMinFileNbr SS) (SS.min_file_nbr + 4) =
      SS.first_index_in_array := by
  rw [slotIndex_incMinFileNbr (by omega)]
  apply Fin.ext
  have hlt := SS.first_lt
  rw [val_slotIndex]
  omega

theorem initialized_incMinFileNbr (SS : Segstateset) (i : Fin segstateSetN) :
    (segstatesetIncMinFileNbr SS).states_initialized i =
      if i = SS.first_index_in_array then false else SS.states_initialized i := by
  simp [segstatesetIncMinFileNbr, Function.update_apply]

/-- Only the minimum leaves the map. -/
theorem lookup_incMinFileNbr (SS : Segstateset) (f : ℤ) :
    (segstatesetIncMinFileNbr SS).lookup f =
      if f = SS.min_file_nbr then none else SS.lookup f := by
  by_cases hmin : f = SS.min_file_nbr
  · rw [if_pos hmin, lookup_of_not_inWindow]
    rw [inWindow_iff]
    rw [min_incMinFileNbr]
    omega
  · rw [if_neg hmin]
    by_cases hw : SS.InWindow f
    · have hgt : SS.min_file_nbr < f := by
        rw [inWindow_iff] at hw
        omega
      have hw' : (segstatesetIncMinFileNbr SS).InWindow f := by
        rw [inWindow_iff] at hw ⊢
        rw [min_incMinFileNbr]
        omega
      have hslot : slotIndex SS f ≠ SS.first_index_in_array := by
        rw [← slotIndex_min]
        exact fun h => hmin (slotIndex_injective hw ⟨Int.le_refl _, by omega⟩ h)
      simp only [lookup, hw, hw', true_and, slotIndex_incMinFileNbr hgt,
        initialized_incMinFileNbr, if_neg hslot]
      rfl
    · rw [lookup_of_not_inWindow hw]
      by_cases hlast : f = SS.min_file_nbr + 4
      · subst f
        simp [lookup, slotIndex_incMinFileNbr_last, initialized_incMinFileNbr]
      · apply lookup_of_not_inWindow
        rw [inWindow_iff] at hw ⊢
        rw [min_incMinFileNbr]
        omega

theorem Placed.incMinFileNbr {SS : Segstateset} (h : SS.Placed) :
    (segstatesetIncMinFileNbr SS).Placed := by
  intro i hi
  rw [initialized_incMinFileNbr] at hi
  split at hi
  · cases hi
  · rename_i hne
    obtain ⟨f, hw, hslot, hnbr⟩ := h i hi
    have hgt : SS.min_file_nbr < f := by
      rw [inWindow_iff] at hw
      have hne' : SS.min_file_nbr ≠ f := by
        rintro rfl
        exact hne (by rw [← hslot, slotIndex_min])
      omega
    refine ⟨f, ?_, ?_, hnbr⟩
    · rw [inWindow_iff] at hw ⊢
      rw [min_incMinFileNbr]
      omega
    · rw [slotIndex_incMinFileNbr hgt, hslot]

end Segstateset

end RqRoute
