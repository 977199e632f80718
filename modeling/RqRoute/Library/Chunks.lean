import Mathlib.Algebra.GroupWithZero.Nat
import RqRoute.Library.Buffer

/-! # Blocks of equal length

A list is cut into blocks of `T` items, the last one filled up, and a block of memory is
read back from its pieces. -/

namespace Chunks

open Memory

variable {α : Type*}

/-- Block `i` of a list; the last one may be shorter, and those behind it are empty. -/
def chunk (T : ℕ) (xs : List α) (i : ℕ) : List α := (xs.drop (i * T)).take T

/-- A block filled up to `T` items. -/
def fill (T : ℕ) (z : α) (xs : List α) : List α := xs ++ List.replicate (T - xs.length) z

/-- The list with the blocks that are not in `present` blotted out. -/
def blot (T : ℕ) (z : α) (present : ℕ → Bool) (xs : List α) : List α :=
  xs.mapIdx fun k x => if present (k / T) then x else z

theorem length_chunk_le (T : ℕ) (xs : List α) (i : ℕ) : (chunk T xs i).length ≤ T :=
  List.length_take_le ..

theorem length_chunk (T : ℕ) (xs : List α) (i : ℕ) :
    (chunk T xs i).length = min T (xs.length - i * T) := by
  rw [chunk, List.length_take, List.length_drop]

/-- The first blocks hold as many items as they have room for. -/
theorem sum_length_chunk (T : ℕ) (xs : List α) (K : ℕ) :
    ((List.range K).map fun i => (chunk T xs i).length).sum = min (K * T) xs.length := by
  induction K with
  | zero => simp
  | succ K ih =>
      rw [List.range_succ, List.map_append, List.sum_append, ih, List.map_singleton,
        List.sum_singleton, length_chunk, Nat.succ_mul]
      omega

theorem length_fill {T : ℕ} {xs : List α} (z : α) (h : xs.length ≤ T) :
    (fill T z xs).length = T := by
  simp only [fill, List.length_append, List.length_replicate]
  omega

theorem getElem?_fill {T : ℕ} {xs : List α} (z : α) {j : ℕ} (hj : j < T) :
    (fill T z xs)[j]? = some (xs[j]?.getD z) := by
  by_cases hlt : j < xs.length
  · rw [fill, List.getElem?_append_left hlt, List.getElem?_eq_getElem hlt]
    rfl
  · have hnone : xs[j]? = none := List.getElem?_eq_none (by omega)
    rw [fill, List.getElem?_append_right (by omega), List.getElem?_replicate,
      if_pos (by omega), hnone]
    rfl

theorem getElem?_chunk {T : ℕ} {xs : List α} {i j : ℕ} (hj : j < T) :
    (chunk T xs i)[j]? = xs[i * T + j]? := by
  rw [chunk, List.getElem?_take, if_pos hj, List.getElem?_drop]

@[simp] theorem length_blot (T : ℕ) (z : α) (present : ℕ → Bool) (xs : List α) :
    (blot T z present xs).length = xs.length := List.length_mapIdx

theorem blot_all {T : ℕ} {z : α} {present : ℕ → Bool} {xs : List α}
    (h : ∀ k < xs.length, present (k / T) = true) : blot T z present xs = xs := by
  apply List.ext_getElem (by simp)
  intro k _ hk
  simp [blot, h k hk]

/-- Memory that holds the filled up blocks of a list, or filler, holds the list with
the missing blocks blotted out. -/
theorem slice_eq_blot {b : Buffer α} {T K : ℕ} {z : α} (present : ℕ → Bool) {xs : List α}
    (hT : 0 < T) (hlen : xs.length ≤ K * T)
    (h : ∀ i < K, b.slice (i * T) T =
      if present i then fill T z (chunk T xs i) else List.replicate T z) :
    b.slice 0 xs.length = blot T z present xs := by
  apply List.ext_getElem (by simp)
  intro k hk _
  have hk' : k < xs.length := by simpa using hk
  have hsplit : k / T * T + k % T = k := Nat.div_add_mod' k T
  have hmod := Nat.mod_lt k hT
  have hrow : k / T < K := Nat.div_lt_of_lt_mul (by rw [Nat.mul_comm]; omega)
  have hcell : (b.slice (k / T * T) T)[k % T]? = some (b.cell k) := by
    rw [List.getElem?_eq_getElem (by simpa using hmod), Buffer.getElem_slice, hsplit]
  rw [h _ hrow] at hcell
  rw [Buffer.getElem_slice, Nat.zero_add]
  simp only [blot, List.getElem_mapIdx]
  split at hcell
  · rename_i hp
    rw [getElem?_fill z hmod, getElem?_chunk hmod, hsplit, List.getElem?_eq_getElem hk'] at hcell
    rw [if_pos hp]
    exact (Option.some.inj hcell).symm
  · rename_i hp
    rw [List.getElem?_replicate, if_pos hmod] at hcell
    rw [if_neg hp]
    exact (Option.some.inj hcell).symm

/-- Laying a list over memory, filled up to `K` blocks, stores its filled up blocks. -/
theorem slice_blit_fill (b : Buffer α) {T K : ℕ} (z : α) {xs : List α}
    (hlen : xs.length ≤ K * T) {i : ℕ} (hi : i < K) :
    (b.blit 0 (fill (K * T) z xs)).slice (i * T) T = fill T z (chunk T xs i) := by
  have hfill := length_fill z (length_chunk_le T xs i)
  apply List.ext_getElem (by rw [hfill, Buffer.length_slice])
  intro j hj hj'
  have hjT : j < T := by simpa using hj
  have hend : i * T + T ≤ K * T := by
    rw [← Nat.succ_mul]
    exact Nat.mul_le_mul_right T hi
  have hall : i * T + j < (fill (K * T) z xs).length := by
    rw [length_fill z hlen]
    omega
  have hcell := b.cell_blit_of_mem 0 hall
  rw [Nat.zero_add] at hcell
  apply Option.some.inj
  rw [Buffer.getElem_slice, hcell, ← List.getElem?_eq_getElem hall,
    ← List.getElem?_eq_getElem hj', getElem?_fill z (by omega), getElem?_fill z hjT,
    getElem?_chunk hjT]

/-- Blocks that agree on every chunk agree. -/
theorem slice_congr_chunks {b b' : Buffer α} {T : ℕ} (K : ℕ)
    (h : ∀ i < K, b.slice (i * T) T = b'.slice (i * T) T) :
    b.slice 0 (T * K) = b'.slice 0 (T * K) := by
  induction K with
  | zero => rfl
  | succ K ih =>
      have hlast := h K (Nat.lt_succ_self K)
      rw [Nat.mul_comm] at hlast
      rw [Nat.mul_succ, Buffer.slice_append, Buffer.slice_append, Nat.zero_add,
        ih fun i hi => h i (Nat.lt_succ_of_lt hi), hlast]

theorem take_fill (T : ℕ) (z : α) (xs : List α) : (fill T z xs).take xs.length = xs :=
  List.take_left

end Chunks
