import Mathlib.Data.Int.Order.Basic

/-! # Sliding maps

A partial map from the integers whose keys lie in a window of `N` numbers. The window only
moves upwards, and what falls out of it is gone. -/

/-- A partial map with its window. -/
structure SlidingMap (N : ℕ) (β : Type*) where
  min : ℤ
  get : ℤ → Option β
  inside : ∀ f v, get f = some v → min ≤ f ∧ f < min + N

namespace SlidingMap

variable {N : ℕ} {β : Type*}

def InWindow (A : SlidingMap N β) (f : ℤ) : Prop := A.min ≤ f ∧ f < A.min + N

instance (A : SlidingMap N β) (f : ℤ) : Decidable (A.InWindow f) :=
  inferInstanceAs (Decidable (_ ∧ _))

def empty (m : ℤ) : SlidingMap N β where
  min := m
  get _ := none
  inside _ _ h := by cases h

/-- Store a value under a number of the window. -/
def store (A : SlidingMap N β) (f : ℤ) (v : β) : SlidingMap N β where
  min := A.min
  get g := if g = f ∧ A.InWindow f then some v else A.get g
  inside g w h := by
    split at h
    · rename_i hg
      rw [hg.1]
      exact hg.2
    · exact A.inside g w h

/-- Change all values. -/
def mapValues (A : SlidingMap N β) (u : β → β) : SlidingMap N β where
  min := A.min
  get g := (A.get g).map u
  inside g w h := by
    obtain ⟨v, hv, -⟩ := Option.map_eq_some_iff.mp h
    exact A.inside g v hv

/-- Move the window by one; the number that was its minimum falls out. -/
def advance (A : SlidingMap N β) : SlidingMap N β where
  min := A.min + 1
  get g := if g = A.min then none else A.get g
  inside g w h := by
    split at h
    · cases h
    · have := A.inside g w h
      omega

@[simp] theorem min_empty (m : ℤ) : (empty m : SlidingMap N β).min = m := rfl

@[simp] theorem get_empty (m f : ℤ) : (empty m : SlidingMap N β).get f = none := rfl

@[simp] theorem min_store (A : SlidingMap N β) (f : ℤ) (v : β) : (A.store f v).min = A.min := rfl

theorem get_store {A : SlidingMap N β} {f : ℤ} (h : A.InWindow f) (v : β) (g : ℤ) :
    (A.store f v).get g = if g = f then some v else A.get g := by
  simp [store, h]

@[simp] theorem min_mapValues (A : SlidingMap N β) (u : β → β) : (A.mapValues u).min = A.min := rfl

@[simp] theorem get_mapValues (A : SlidingMap N β) (u : β → β) (g : ℤ) :
    (A.mapValues u).get g = (A.get g).map u := rfl

@[simp] theorem min_advance (A : SlidingMap N β) : A.advance.min = A.min + 1 := rfl

@[simp] theorem get_advance (A : SlidingMap N β) (g : ℤ) :
    A.advance.get g = if g = A.min then none else A.get g := rfl

end SlidingMap
