import Mathlib.Data.List.Basic
import Mathlib.Data.List.Induction

/-! # First come, first kept

A store with room for `cap` items that ignores a key it already holds, and everything
once it is full. -/

namespace Dedup

variable {α β : Type*} [DecidableEq α]

/-- Offer one item to a store. -/
def retain (cap : ℕ) (kept : List (α × β)) (x : α × β) : List (α × β) :=
  if kept.length ≥ cap ∨ x.1 ∈ kept.map Prod.fst then kept else kept ++ [x]

/-- Offer a sequence of items to an empty store. -/
def retainAll (cap : ℕ) (xs : List (α × β)) : List (α × β) := xs.foldl (retain cap) []

@[simp] theorem retainAll_append_singleton (cap : ℕ) (xs : List (α × β)) (x : α × β) :
    retainAll cap (xs ++ [x]) = retain cap (retainAll cap xs) x := by
  simp [retainAll]

theorem eraseDups_append_singleton (ks : List α) (k : α) :
    (ks ++ [k]).eraseDups = if k ∈ ks then ks.eraseDups else ks.eraseDups ++ [k] := by
  rw [List.eraseDups_append]
  by_cases hk : k ∈ ks <;> simp [List.removeAll, hk, List.eraseDups_cons]

theorem eraseDups_of_nodup {ks : List α} (h : ks.Nodup) : ks.eraseDups = ks := by
  induction ks using List.reverseRecOn with
  | nil => rfl
  | append_singleton ks k ih =>
      obtain ⟨hks, -, hdisj⟩ := List.nodup_append.mp h
      have hk : k ∉ ks := fun hmem => hdisj k hmem k (List.mem_singleton_self k) rfl
      rw [eraseDups_append_singleton, if_neg hk, ih hks]

/-- The keys of the store are the first `cap` distinct keys, in order of arrival. -/
theorem keys_retainAll (cap : ℕ) (xs : List (α × β)) :
    (retainAll cap xs).map Prod.fst = ((xs.map Prod.fst).eraseDups).take cap := by
  induction xs using List.reverseRecOn with
  | nil => simp [retainAll]
  | append_singleton xs x ih =>
      have hlen := congrArg List.length ih
      simp only [List.length_map, List.length_take] at hlen
      rw [retainAll_append_singleton, List.map_append, List.map_singleton,
        eraseDups_append_singleton, retain]
      by_cases hfull : (retainAll cap xs).length ≥ cap
      · rw [if_pos (.inl hfull), ih]
        split
        · rfl
        · rw [List.take_append_of_le_length (by omega)]
      · have hall : ((xs.map Prod.fst).eraseDups).take cap = (xs.map Prod.fst).eraseDups :=
          List.take_of_length_le (by omega)
        have hmem : x.1 ∈ (retainAll cap xs).map Prod.fst ↔ x.1 ∈ xs.map Prod.fst := by
          rw [ih, hall, List.mem_eraseDups]
        by_cases hx : x.1 ∈ xs.map Prod.fst
        · rw [if_pos (.inr (hmem.mpr hx)), if_pos hx, ih]
        · rw [if_neg (by rw [hmem]; tauto), if_neg hx, List.map_append, ih, hall,
            List.map_singleton]
          refine (List.take_of_length_le ?_).symm
          simp only [List.length_append, List.length_singleton]
          omega

/-- Every item kept is the first one with its key. -/
theorem find?_of_mem_retainAll {cap : ℕ} {xs : List (α × β)} {p : α × β}
    (h : p ∈ retainAll cap xs) : xs.find? (fun x => x.1 = p.1) = some p := by
  induction xs using List.reverseRecOn with
  | nil => simp [retainAll] at h
  | append_singleton xs x ih =>
      rw [List.find?_append]
      by_cases hold : p ∈ retainAll cap xs
      · rw [ih hold, Option.some_or]
      · rw [retainAll_append_singleton, retain] at h
        split at h
        · exact absurd h hold
        · rename_i hnew
          rw [List.mem_append, List.mem_singleton] at h
          obtain rfl : p = x := h.resolve_left hold
          push Not at hnew
          rw [keys_retainAll, List.take_of_length_le, List.mem_eraseDups] at hnew
          · have hnone : xs.find? (fun x => x.1 = p.1) = none := by
              rw [List.find?_eq_none]
              intro y hy heq
              exact hnew.2 (List.mem_map.mpr ⟨y, hy, by simpa using heq⟩)
            rw [hnone]
            simp
          · have hlen := congrArg List.length (keys_retainAll cap xs)
            simp only [List.length_map, List.length_take] at hlen
            omega

end Dedup
