import Mathlib.Data.Nat.ModEq

/-! # Cyclic indices

The slots of a table that is walked around, numbered from a home slot. -/

namespace Cyclic

/-- The slot `d` steps after `home` in a table of `n` slots. -/
def slot (n home d : ℕ) : ℕ := (home + d) % n

theorem slot_lt {n : ℕ} (hn : 0 < n) (home d : ℕ) : slot n home d < n := Nat.mod_lt _ hn

theorem slot_zero {n home : ℕ} (h : home < n) : slot n home 0 = home := Nat.mod_eq_of_lt h

/-- One step, with the wrap-around written out. -/
theorem slot_succ {n : ℕ} (hn : 0 < n) (home d : ℕ) :
    slot n home (d + 1) = if slot n home d + 1 = n then 0 else slot n home d + 1 := by
  have hlt := slot_lt hn home d
  have hmod : slot n home (d + 1) = (slot n home d + 1) % n := by
    rw [slot, slot, Nat.mod_add_mod, Nat.add_assoc]
  rw [hmod]
  split
  · rename_i hend
    rw [hend, Nat.mod_self]
  · exact Nat.mod_eq_of_lt (by omega)

/-- Counting from a home that is `e` steps on. -/
theorem slot_slot (n home e d : ℕ) : slot n (slot n home e) d = slot n home (e + d) := by
  rw [slot, slot, slot, Nat.mod_add_mod, Nat.add_assoc]

/-- Every slot is at some distance. -/
theorem exists_slot {n home i : ℕ} (hhome : home < n) (hi : i < n) :
    ∃ d < n, slot n home d = i := by
  have hn : 0 < n := by omega
  refine ⟨(i + (n - home)) % n, Nat.mod_lt _ hn, ?_⟩
  rw [slot, Nat.add_mod_mod]
  have hsum : home + (i + (n - home)) = i + n := by omega
  rw [hsum, Nat.add_mod_right, Nat.mod_eq_of_lt hi]

end Cyclic
