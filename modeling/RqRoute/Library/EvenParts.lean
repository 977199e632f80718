import Mathlib.Algebra.BigOperators.Group.List.Basic
import Mathlib.Algebra.Order.Ring.Int
import Mathlib.Tactic.Ring

/-! # Even parts

`n` items in `c` parts whose sizes differ by at most one: the larger size is `n / c` rounded
up, and as many parts have it as are needed. -/

namespace EvenParts

/-- The larger of the two sizes. -/
def large (n c : ℤ) : ℤ := (n + c - 1) / c

/-- How many parts have the larger size. -/
def largeCount (n c : ℤ) : ℤ := c - (large n c * c - n)

variable {n c m : ℤ}

/-! ## The two sizes -/

theorem le_large_mul (hc : 0 < c) : n ≤ large n c * c := by
  have hlt : n + c - 1 < (large n c + 1) * c := Int.lt_ediv_add_one_mul_self _ hc
  rw [Int.add_mul, Int.one_mul] at hlt
  omega

theorem large_mul_lt (hc : 0 < c) : large n c * c < n + c := by
  have hle : large n c * c ≤ n + c - 1 := Int.ediv_mul_le _ (by omega)
  omega

theorem large_le (hc : 0 < c) (hn : n ≤ m * c) : large n c ≤ m := by
  have hlt : large n c * c < (m + 1) * c := by
    have hlarge := large_mul_lt (n := n) hc
    rw [Int.add_mul, Int.one_mul]
    omega
  have := Int.lt_of_mul_lt_mul_right hlt (by omega)
  omega

theorem lt_large (hc : 0 < c) (hn : m * c < n) : m < large n c :=
  Int.lt_of_mul_lt_mul_right (hn.trans_le (le_large_mul hc)) (by omega)

theorem largeCount_pos (hc : 0 < c) : 1 ≤ largeCount n c := by
  have := large_mul_lt (n := n) hc
  unfold largeCount
  omega

theorem largeCount_le (hc : 0 < c) : largeCount n c ≤ c := by
  have := le_large_mul (n := n) hc
  unfold largeCount
  omega

/-- The parts make up the whole. -/
theorem total (n c : ℤ) :
    large n c * largeCount n c + (large n c - 1) * (c - largeCount n c) = n := by
  unfold largeCount
  ring

/-- With at least as many items as parts no part is empty. -/
theorem small_pos (hc : 0 < c) (hn : c ≤ n) (hsmall : largeCount n c < c) :
    1 ≤ large n c - 1 := by
  have hover : 1 * c < large n c * c := by
    unfold largeCount at hsmall
    omega
  have := Int.lt_of_mul_lt_mul_right hover (by omega)
  omega

/-! ## The list of parts -/

/-- `l` parts of `K` items, and then parts of one item less. -/
def parts (K l c : ℤ) : List ℤ :=
  List.replicate l.toNat K ++ List.replicate (c - l).toNat (K - 1)

variable {K l : ℤ}

theorem length_parts (hl : 0 ≤ l) (hlc : l ≤ c) : (parts K l c).length = c.toNat := by
  simp only [parts, List.length_append, List.length_replicate]
  omega

theorem sum_parts (hl : 0 ≤ l) (hlc : l ≤ c) :
    (parts K l c).sum = K * l + (K - 1) * (c - l) := by
  have hlarge : (l.toNat : ℤ) = l := Int.toNat_of_nonneg hl
  have hsmall : ((c - l).toNat : ℤ) = c - l := Int.toNat_of_nonneg (by omega)
  simp only [parts, List.sum_append, List.sum_replicate, nsmul_eq_mul, hlarge, hsmall]
  ring

theorem mem_parts_pos (hK : 1 ≤ K) (hsmall : l < c → 1 ≤ K - 1) {k : ℤ}
    (hk : k ∈ parts K l c) : 1 ≤ k := by
  rcases List.mem_append.mp hk with hlarge | hrest
  · obtain ⟨-, rfl⟩ := List.mem_replicate.mp hlarge
    exact hK
  · obtain ⟨hne, rfl⟩ := List.mem_replicate.mp hrest
    exact hsmall (by omega)

/-- The size of a part by its place. -/
theorem getElem?_parts (hl : 0 ≤ l) {i : ℕ} (hi : i < c) :
    (parts K l c)[i]? = some (K - if l ≤ i then 1 else 0) := by
  unfold parts
  by_cases hlarge : l ≤ i
  · rw [List.getElem?_append_right (by simpa using hlarge), List.length_replicate,
      List.getElem?_replicate_of_lt (by omega), if_pos hlarge]
  · rw [List.getElem?_append_left (by rw [List.length_replicate]; omega),
      List.getElem?_replicate_of_lt (by omega), if_neg hlarge, Int.sub_zero]

end EvenParts
