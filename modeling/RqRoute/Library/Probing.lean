import Mathlib.Data.List.Nodup
import Mathlib.Data.List.Perm.Subperm
import Mathlib.Data.Nat.Find
import Mathlib.Logic.Function.Basic
import RqRoute.Library.Cyclic

/-! # Linear probing

A table of `n` slots, walked from the home slot of a key until the key or a free slot
is met. The free slots hold the mark `e`. -/

namespace Probing

open Cyclic

variable {α : Type*}

/-- Walk the table for at most `fuel` slots; the slot where the walk stops. -/
def probe [DecidableEq α] (t : ℕ → α) (e k : α) (n : ℕ) : (fuel i : ℕ) → Option ℕ
  | 0, _ => none
  | fuel + 1, i =>
    if t i = e ∨ t i = k then some i else probe t e k n fuel (if i + 1 = n then 0 else i + 1)

/-- No free slot lies between a home and a slot. -/
def Reaches (t : ℕ → α) (e : α) (n home i : ℕ) : Prop :=
  ∃ d < n, slot n home d = i ∧ ∀ j < d, t (slot n home j) ≠ e

/-- The table holds the given keys, each once, and each reachable from its home. -/
structure WellPlaced (t : ℕ → α) (e : α) (n : ℕ) (home : α → ℕ) (keys : List α) : Prop where
  not_mark : e ∉ keys
  stored : ∀ k, k ≠ e → (k ∈ keys ↔ ∃ i < n, t i = k)
  once : ∀ i < n, ∀ j < n, t i ≠ e → t i = t j → i = j
  reached : ∀ i < n, t i ≠ e → Reaches t e n (home (t i)) i

theorem wellPlaced_empty (e : α) (n : ℕ) (home : α → ℕ) :
    WellPlaced (fun _ => e) e n home [] where
  not_mark := by simp
  stored k hk := by simp [Ne.symm hk]
  once i _ j _ h := absurd rfl h
  reached i _ h := absurd rfl h

/-! ## The walk -/

/-- A walk that may take `n` steps meets a free slot, so there is a first slot that
stops it. -/
theorem exists_first_stop {t : ℕ → α} {e : α} (k : α) {n home : ℕ} (hhome : home < n)
    (hfree : ∃ i < n, t i = e) :
    ∃ d < n, (t (slot n home d) = e ∨ t (slot n home d) = k) ∧
      ∀ j < d, ¬(t (slot n home j) = e ∨ t (slot n home j) = k) := by
  classical
  obtain ⟨i, hi, hti⟩ := hfree
  obtain ⟨d, hd, rfl⟩ := exists_slot hhome hi
  have hstop : ∃ d, t (slot n home d) = e ∨ t (slot n home d) = k := ⟨d, .inl hti⟩
  have hle : Nat.find hstop ≤ d := Nat.find_min' hstop (.inl hti)
  exact ⟨Nat.find hstop, by omega, Nat.find_spec hstop, fun j hj => Nat.find_min hstop hj⟩

/-- The walk goes to the first slot that stops it. -/
theorem probe_eq [DecidableEq α] {t : ℕ → α} {e k : α} {n home : ℕ} (hhome : home < n) {d : ℕ}
    (hstop : t (slot n home d) = e ∨ t (slot n home d) = k)
    (hbefore : ∀ j < d, ¬(t (slot n home j) = e ∨ t (slot n home j) = k))
    {fuel : ℕ} (hfuel : d < fuel) :
    probe t e k n fuel home = some (slot n home d) := by
  induction fuel generalizing home d with
  | zero => omega
  | succ fuel ih =>
      have hn : 0 < n := by omega
      cases d with
      | zero =>
          rw [slot_zero hhome] at hstop ⊢
          simp [probe, hstop]
      | succ d =>
          have hgo : ¬(t home = e ∨ t home = k) := by
            simpa [slot_zero hhome] using hbefore 0 (by omega)
          have hshift : ∀ j, slot n (slot n home 1) j = slot n home (j + 1) := fun j => by
            rw [slot_slot, Nat.add_comm]
          rw [probe, if_neg hgo]
          have hnext : (if home + 1 = n then 0 else home + 1) = slot n home 1 := by
            simpa [slot_zero hhome] using (slot_succ hn home 0).symm
          rw [hnext, ih (slot_lt hn home 1) (d := d) (by rwa [hshift])
            (fun j hj => by rw [hshift]; exact hbefore (j + 1) (by omega)) (by omega), hshift]

/-! ## Looking up and inserting -/

variable {t : ℕ → α} {e : α} {n : ℕ} {home : α → ℕ} {keys : List α}

/-- Fewer keys than slots leave a slot free. -/
theorem WellPlaced.exists_free (h : WellPlaced t e n home keys) (hload : keys.length < n) :
    ∃ i < n, t i = e := by
  by_contra hfull
  push Not at hfull
  have hnodup : ((List.range n).map t).Nodup := by
    apply List.Nodup.map_on _ List.nodup_range
    intro i hi j hj hij
    exact h.once i (List.mem_range.mp hi) j (List.mem_range.mp hj)
      (hfull i (List.mem_range.mp hi)) hij
  have hsub : (List.range n).map t ⊆ keys := by
    intro k hk
    obtain ⟨i, hi, rfl⟩ := List.mem_map.mp hk
    exact (h.stored _ (hfull i (List.mem_range.mp hi))).mpr ⟨i, List.mem_range.mp hi, rfl⟩
  have hlen := (hnodup.subperm hsub).length_le
  simp only [List.length_map, List.length_range] at hlen
  omega

/-- The walk for a key ends in its slot if the table holds it, else in a free slot that
its home reaches. -/
theorem WellPlaced.probe_spec [DecidableEq α] (h : WellPlaced t e n home keys)
    (hload : keys.length < n) {k : α} (hk : k ≠ e) (hhome : home k < n) :
    ∃ i < n, probe t e k n n (home k) = some i ∧ Reaches t e n (home k) i ∧
      (k ∈ keys → t i = k) ∧ (k ∉ keys → t i = e) := by
  obtain ⟨d, hd, hstop, hbefore⟩ := exists_first_stop k hhome (h.exists_free hload)
  have hn : 0 < n := by omega
  refine ⟨slot n (home k) d, slot_lt hn _ _, probe_eq hhome hstop hbefore hd,
    ⟨d, hd, rfl, fun j hj hj' => hbefore j hj (.inl hj')⟩, ?_, ?_⟩
  · intro hmem
    obtain ⟨i, hi, hti⟩ := (h.stored k hk).mp hmem
    obtain ⟨d', hd', hslot, hfull⟩ := h.reached i hi (by rwa [hti])
    rw [hti] at hslot hfull
    rcases Nat.lt_trichotomy d' d with hlt | rfl | hgt
    · exact absurd (.inr (by rw [hslot, hti])) (hbefore d' hlt)
    · rw [hslot, hti]
    · exact hstop.resolve_left (hfull d hgt)
  · intro hmem
    refine hstop.resolve_right fun hkey => hmem ?_
    exact (h.stored k hk).mpr ⟨_, slot_lt hn _ _, hkey⟩

/-- Putting a new key into a free slot that its home reaches. -/
theorem WellPlaced.insert (h : WellPlaced t e n home keys) {k : α} (hk : k ≠ e)
    (hnew : k ∉ keys) {i : ℕ} (hi : i < n) (hfree : t i = e)
    (hreach : Reaches t e n (home k) i) :
    WellPlaced (Function.update t i k) e n home (keys ++ [k]) := by
  have hgrow : ∀ {home' i'}, Reaches t e n home' i' →
      Reaches (Function.update t i k) e n home' i' := by
    rintro home' i' ⟨d, hd, hslot, hfull⟩
    refine ⟨d, hd, hslot, fun j hj => ?_⟩
    rw [Function.update_apply]
    split
    · exact hk
    · exact hfull j hj
  have hother : ∀ j < n, t j = k → False := fun j hj hjk =>
    hnew ((h.stored k hk).mpr ⟨j, hj, hjk⟩)
  refine ⟨?_, ?_, ?_, ?_⟩
  · simpa [Ne.symm hk] using h.not_mark
  · intro k' hk'
    simp only [List.mem_append, List.mem_singleton, h.stored k' hk', Function.update_apply]
    constructor
    · rintro (⟨j, hj, hjk⟩ | rfl)
      · refine ⟨j, hj, ?_⟩
        rw [if_neg (by rintro rfl; exact hk' (hjk.symm.trans hfree)), hjk]
      · exact ⟨i, hi, by simp⟩
    · rintro ⟨j, hj, hjk⟩
      split at hjk
      · exact .inr hjk.symm
      · exact .inl ⟨j, hj, hjk⟩
  · intro j hj j' hj' hne heq
    simp only [Function.update_apply] at hne heq
    by_cases hji : j = i <;> by_cases hji' : j' = i <;>
      simp only [hji, hji', if_true, if_false] at hne heq
    · rw [hji, hji']
    · exact (hother j' hj' heq.symm).elim
    · exact (hother j hj heq).elim
    · exact h.once j hj j' hj' hne heq
  · intro j hj hne
    rw [Function.update_apply] at hne ⊢
    split
    · rename_i hji
      subst hji
      exact hgrow hreach
    · rename_i hji
      rw [if_neg hji] at hne
      exact hgrow (h.reached j hj hne)

end Probing
