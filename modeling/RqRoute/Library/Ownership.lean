import Mathlib.Data.Finset.Card

/-! # Ownership

An object is named by the variable that holds it. The account of a program fails where a
variable that holds an object is given another one, and where one that holds none is used or
released. -/

namespace Ownership

variable {ν : Type*}

inductive Use (ν : Type*) where
  | acquire (x : ν)
  | access (x : ν)
  | release (x : ν)
deriving DecidableEq, Repr

variable [DecidableEq ν]

/-- Who holds an object after one use. -/
def settle (held : Finset ν) : Use ν → Option (Finset ν)
  | .acquire x => if x ∈ held then none else some (insert x held)
  | .access x => if x ∈ held then some held else none
  | .release x => if x ∈ held then some (held.erase x) else none

/-- Who holds an object in the end, if nothing fails on the way. -/
def account (held : Finset ν) : List (Use ν) → Option (Finset ν)
  | [] => some held
  | u :: us => (settle held u).bind fun held' => account held' us

theorem account_append (held : Finset ν) (us vs : List (Use ν)) :
    account held (us ++ vs) = (account held us).bind fun held' => account held' vs := by
  induction us generalizing held with
  | nil => rfl
  | cons u us ih =>
      rw [List.cons_append, account, account, Option.bind_assoc]
      simp only [ih]

theorem settle_acquire {held held' : Finset ν} {x : ν} :
    settle held (.acquire x) = some held' ↔ x ∉ held ∧ insert x held = held' := by
  by_cases hx : x ∈ held <;> simp [settle, hx]

theorem settle_access {held held' : Finset ν} {x : ν} :
    settle held (.access x) = some held' ↔ x ∈ held ∧ held = held' := by
  by_cases hx : x ∈ held <;> simp [settle, hx]

theorem settle_release {held held' : Finset ν} {x : ν} :
    settle held (.release x) = some held' ↔ x ∈ held ∧ held.erase x = held' := by
  by_cases hx : x ∈ held <;> simp [settle, hx]

/-- What was acquired has been released, except for what is held. -/
theorem count_acquire {held held' : Finset ν} {us : List (Use ν)}
    (h : account held us = some held') (x : ν) :
    us.count (.acquire x) + (if x ∈ held then 1 else 0) =
      us.count (.release x) + if x ∈ held' then 1 else 0 := by
  induction us generalizing held with
  | nil =>
      obtain rfl := Option.some.inj h
      rfl
  | cons u us ih =>
      obtain ⟨next, hnext, hrest⟩ := Option.bind_eq_some_iff.mp h
      have hcount := ih hrest
      cases u with
      | acquire y =>
          obtain ⟨hy, rfl⟩ := settle_acquire.mp hnext
          by_cases hxy : x = y
          · subst hxy
            simp only [Finset.mem_insert_self, if_true, hy, if_false, List.count_cons_self,
              List.count_cons_of_ne (show Use.acquire x ≠ .release x by simp)] at hcount ⊢
            omega
          · simpa [hxy, Ne.symm hxy] using hcount
      | access y =>
          obtain ⟨-, rfl⟩ := settle_access.mp hnext
          simpa using hcount
      | release y =>
          obtain ⟨hy, rfl⟩ := settle_release.mp hnext
          by_cases hxy : x = y
          · subst hxy
            simp only [Finset.notMem_erase, hy, if_true, if_false, List.count_cons_self,
              List.count_cons_of_ne (show Use.release x ≠ .acquire x by simp)] at hcount ⊢
            omega
          · simpa [hxy, Ne.symm hxy] using hcount

/-! ## Rules -/

/-- From the holders `P`, the uses succeed and leave the holders `Q`. -/
def Settles (P : ν → Prop) (us : List (Use ν)) (Q : ν → Prop) : Prop :=
  ∀ held : Finset ν, (∀ x, x ∈ held ↔ P x) →
    ∃ held', account held us = some held' ∧ ∀ x, x ∈ held' ↔ Q x

variable {P Q R : ν → Prop} {us vs : List (Use ν)}

theorem Settles.nil : Settles P [] P := fun held h => ⟨held, rfl, h⟩

theorem Settles.congr (h : Settles P us Q) (hQ : ∀ x, Q x ↔ R x) : Settles P us R := by
  intro held hheld
  obtain ⟨held', haccount, hmem⟩ := h held hheld
  exact ⟨held', haccount, fun x => (hmem x).trans (hQ x)⟩

theorem Settles.append (h₁ : Settles P us Q) (h₂ : Settles Q vs R) : Settles P (us ++ vs) R := by
  intro held hheld
  obtain ⟨held₁, haccount₁, hmem₁⟩ := h₁ held hheld
  obtain ⟨held₂, haccount₂, hmem₂⟩ := h₂ held₁ hmem₁
  exact ⟨held₂, by rw [account_append, haccount₁, Option.bind_some, haccount₂], hmem₂⟩

theorem Settles.cons {u : Use ν} (h₁ : Settles P [u] Q) (h₂ : Settles Q us R) :
    Settles P (u :: us) R := h₁.append h₂

theorem Settles.acquire {x : ν} (h : ¬P x) : Settles P [.acquire x] fun y => y = x ∨ P y := by
  intro held hheld
  have hx : x ∉ held := fun hx => h ((hheld x).mp hx)
  refine ⟨insert x held, by simp [account, settle, hx], fun y => ?_⟩
  rw [Finset.mem_insert, hheld]

theorem Settles.access {x : ν} (h : P x) : Settles P [.access x] P := by
  intro held hheld
  have hx : x ∈ held := (hheld x).mpr h
  exact ⟨held, by simp [account, settle, hx], hheld⟩

theorem Settles.release {x : ν} (h : P x) : Settles P [.release x] fun y => y ≠ x ∧ P y := by
  intro held hheld
  have hx : x ∈ held := (hheld x).mpr h
  refine ⟨held.erase x, by simp [account, settle, hx], fun y => ?_⟩
  rw [Finset.mem_erase, hheld]

end Ownership
