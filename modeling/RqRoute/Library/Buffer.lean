import Mathlib.Data.List.Basic
import Mathlib.Logic.Function.Basic

/-! # Memory blocks

A block has an allocated size and a value at every offset; the offsets past the
size are never looked at. Every access is bounds-checked, and the lemmas say what
a later read sees of an earlier write. -/

namespace Memory

/-- An allocated block: its size, and what each offset holds. -/
structure Buffer (α : Type*) where
  size : ℕ
  cell : ℕ → α

namespace Buffer

variable {α : Type*}

/-- The `n` values from offset `offs` on. -/
def slice (b : Buffer α) (offs n : ℕ) : List α :=
  (List.range n).map fun i => b.cell (offs + i)

/-- The block with `xs` laid over it from offset `offs` on. -/
def blit (b : Buffer α) (offs : ℕ) (xs : List α) : Buffer α :=
  { b with cell := fun i => if offs ≤ i then (xs[i - offs]?).getD (b.cell i) else b.cell i }

/-- The value at an offset inside the block. -/
def load? (b : Buffer α) (i : ℕ) : Option α :=
  if i < b.size then some (b.cell i) else none

/-- Store one value at an offset inside the block. -/
def store? (b : Buffer α) (i : ℕ) (a : α) : Option (Buffer α) :=
  if i < b.size then some (b.blit i [a]) else none

/-- Copy `n` values out of the block. -/
def read? (b : Buffer α) (offs n : ℕ) : Option (List α) :=
  if offs + n ≤ b.size then some (b.slice offs n) else none

/-- Copy values into the block. -/
def write? (b : Buffer α) (offs : ℕ) (xs : List α) : Option (Buffer α) :=
  if offs + xs.length ≤ b.size then some (b.blit offs xs) else none

/-! ## Sizes -/

@[simp] theorem length_slice (b : Buffer α) (offs n : ℕ) : (b.slice offs n).length = n := by
  simp [slice]

@[simp] theorem size_blit (b : Buffer α) (offs : ℕ) (xs : List α) :
    (b.blit offs xs).size = b.size := rfl

theorem load?_of_lt {b : Buffer α} {i : ℕ} (h : i < b.size) : b.load? i = some (b.cell i) := by
  simp [load?, h]

theorem store?_of_lt {b : Buffer α} {i : ℕ} (h : i < b.size) (a : α) :
    b.store? i a = some (b.blit i [a]) := by
  simp [store?, h]

theorem read?_of_le {b : Buffer α} {offs n : ℕ} (h : offs + n ≤ b.size) :
    b.read? offs n = some (b.slice offs n) := by
  simp [read?, h]

theorem write?_of_le {b : Buffer α} {offs : ℕ} {xs : List α} (h : offs + xs.length ≤ b.size) :
    b.write? offs xs = some (b.blit offs xs) := by
  simp [write?, h]

/-! ## What a cell holds after a write -/

theorem cell_blit_of_lt (b : Buffer α) {offs i : ℕ} (xs : List α) (h : i < offs) :
    (b.blit offs xs).cell i = b.cell i := by
  simp [blit, Nat.not_le.mpr h]

theorem cell_blit_of_ge (b : Buffer α) {offs i : ℕ} {xs : List α} (h : offs + xs.length ≤ i) :
    (b.blit offs xs).cell i = b.cell i := by
  have hnone : xs[i - offs]? = none := List.getElem?_eq_none (by omega)
  simp [blit, hnone]

theorem cell_blit_of_mem (b : Buffer α) (offs : ℕ) {i : ℕ} {xs : List α} (h : i < xs.length) :
    (b.blit offs xs).cell (offs + i) = xs[i] := by
  simp [blit, List.getElem?_eq_getElem h]

@[simp] theorem cell_blit_singleton (b : Buffer α) (i j : ℕ) (a : α) :
    (b.blit i [a]).cell j = if j = i then a else b.cell j := by
  by_cases hji : j = i
  · subst j
    have hlt : 0 < [a].length := by simp
    simpa using b.cell_blit_of_mem i hlt
  · rw [if_neg hji]
    rcases Nat.lt_or_gt_of_ne hji with h | h
    · exact b.cell_blit_of_lt _ h
    · exact b.cell_blit_of_ge (by simp only [List.length_singleton]; omega)

theorem cell_blit_singleton_eq_update (b : Buffer α) (i : ℕ) (a : α) :
    (b.blit i [a]).cell = Function.update b.cell i a := by
  funext j
  rw [cell_blit_singleton, Function.update_apply]

/-- Two writes side by side are one write. -/
theorem blit_blit (b : Buffer α) (offs : ℕ) (xs ys : List α) :
    (b.blit offs xs).blit (xs.length + offs) ys = b.blit offs (xs ++ ys) := by
  unfold blit
  congr 1
  funext i
  by_cases hlo : offs ≤ i
  · by_cases hhi : xs.length + offs ≤ i
    · have hx : xs[i - offs]? = none := List.getElem?_eq_none (by omega)
      have hidx : i - offs - xs.length = i - (xs.length + offs) := by omega
      simp [hlo, hhi, List.getElem?_append_right (show xs.length ≤ i - offs by omega), hx, hidx]
    · simp [hlo, hhi, List.getElem?_append_left (show i - offs < xs.length by omega)]
  · have hhi : ¬xs.length + offs ≤ i := by omega
    simp [hlo, hhi]

/-! ## What a slice holds after a write -/

theorem slice_congr {b b' : Buffer α} {offs n : ℕ}
    (h : ∀ i, offs ≤ i → i < offs + n → b.cell i = b'.cell i) :
    b.slice offs n = b'.slice offs n := by
  apply List.map_congr_left
  intro i hi
  have hin : i < n := List.mem_range.mp hi
  exact h (offs + i) (by omega) (by omega)

theorem slice_blit_self (b : Buffer α) (offs : ℕ) (xs : List α) :
    (b.blit offs xs).slice offs xs.length = xs := by
  apply List.ext_getElem (by simp)
  intro i h₁ h₂
  simp only [slice, List.getElem_map, List.getElem_range]
  exact b.cell_blit_of_mem _ h₂

theorem slice_blit_of_disjoint (b : Buffer α) {offs n offs' : ℕ} {xs : List α}
    (h : offs + n ≤ offs' ∨ offs' + xs.length ≤ offs) :
    (b.blit offs' xs).slice offs n = b.slice offs n := by
  apply slice_congr
  intro i hlo hhi
  rcases h with h | h
  · exact b.cell_blit_of_lt _ (by omega)
  · exact b.cell_blit_of_ge (by omega)

theorem slice_append (b : Buffer α) (offs m n : ℕ) :
    b.slice offs (m + n) = b.slice offs m ++ b.slice (offs + m) n := by
  simp [slice, List.range_add, Function.comp_def, Nat.add_assoc]

@[simp] theorem slice_zero (b : Buffer α) (offs : ℕ) : b.slice offs 0 = [] := rfl

theorem take_slice (b : Buffer α) (offs : ℕ) {m n : ℕ} (h : m ≤ n) :
    (b.slice offs n).take m = b.slice offs m := by
  obtain ⟨k, rfl⟩ := Nat.exists_eq_add_of_le h
  rw [slice_append]
  simp

theorem getElem_slice (b : Buffer α) {offs n i : ℕ} (h : i < (b.slice offs n).length) :
    (b.slice offs n)[i] = b.cell (offs + i) := by
  simp [slice]

end Buffer

end Memory
