import RqRoute.Model.Segstate
import Mathlib.Logic.Function.Basic

/-! # The ring of segments

`segstateset.c`: the four segments from `min_file_nbr` on, in slots that are addressed
relative to a rotating first index. A slot index plays the part of the pointer that
`segstateset_get` returns. -/

namespace RqRoute

open Checked

/-- `SEGSTATE_SET_N`. -/
abbrev segstateSetN : ℕ := 4

structure Segstateset where
  min_file_nbr : ℤ
  first_index_in_array : Fin segstateSetN
  states_initialized : Fin segstateSetN → Bool
  states : Fin segstateSetN → Segstate

inductive SegstateStatus where
  | ok
  | uninitialized
  | belowMin
  | aboveMax
deriving DecidableEq, Repr

def segstatesetInit (min_file_nbr : ℤ) : Segstateset :=
  { min_file_nbr
    first_index_in_array := 0
    states_initialized := fun _ => false
    states := fun _ => .zero }

def segstatesetGetMinFileNbr (SS : Segstateset) : ℤ := SS.min_file_nbr

def segstatesetIncMinFileNbr (SS : Segstateset) : Segstateset :=
  { SS with
    states_initialized := Function.update SS.states_initialized SS.first_index_in_array false
    first_index_in_array :=
      if h : SS.first_index_in_array.val + 1 < segstateSetN then
        ⟨SS.first_index_in_array.val + 1, h⟩
      else 0
    min_file_nbr := SS.min_file_nbr + 1 }

/-- The slot of a file number inside the window. -/
def slotIndex (SS : Segstateset) (file_nbr : ℤ) : Fin segstateSetN :=
  Fin.ofNat segstateSetN ((file_nbr - SS.min_file_nbr).toNat + SS.first_index_in_array.val)

def getInternalIndex (SS : Segstateset) (file_nbr : ℤ) :
    SegstateStatus × Option (Fin segstateSetN) :=
  if file_nbr < SS.min_file_nbr then (.belowMin, none)
  else if file_nbr ≥ SS.min_file_nbr + segstateSetN then (.aboveMax, none)
  else
    let idx := slotIndex SS file_nbr
    (if SS.states_initialized idx then .ok else .uninitialized, some idx)

def segstatesetGet (SS : Segstateset) (file_nbr : ℤ) :
    SegstateStatus × Option (Fin segstateSetN) :=
  getInternalIndex SS file_nbr

def segstatesetMarkInitialized (SS : Segstateset) (file_nbr : ℤ) :
    Except Fault (SegstateStatus × Segstateset) := do
  let r := getInternalIndex SS file_nbr
  check (r.1 ≠ .ok) .markInitializedStatus
  match r with
  | (_, some idx) =>
    return (.ok, { SS with states_initialized := Function.update SS.states_initialized idx true })
  | (status, none) => return (status, SS)

/-- One round of the loop of `segstateset_mark_readytowrite`. -/
def markReadySlot (SS : Segstateset) (file_nbr : ℤ) (i : Fin segstateSetN) : Segstate :=
  if SS.states_initialized i ∧ segstateGetMode (SS.states i) = .receiving ∧
      (SS.states i).file_nbr < file_nbr then
    segstateReadyForWrite (SS.states i)
  else SS.states i

def segstatesetMarkReadytowrite (SS : Segstateset) (file_nbr : ℤ) : Segstateset :=
  { SS with states := markReadySlot SS file_nbr }

/-- Assign through the pointer `&S->states[idx]`. -/
def Segstateset.setSlot (SS : Segstateset) (idx : Fin segstateSetN) (S : Segstate) :
    Segstateset :=
  { SS with states := Function.update SS.states idx S }

end RqRoute
