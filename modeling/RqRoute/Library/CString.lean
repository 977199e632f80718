import RqRoute.Library.Buffer
import RqRoute.Library.Lines

/-! # Strings in memory

A string in a block of memory is what stands before its terminator. -/

namespace Text

open Memory

/-- The string at offset `p`. -/
def stringAt (b : Buffer Char) (p : ℕ) : Str := cstr (b.slice p (b.size - p))

/-- Store a string and its terminator at offset `p`. -/
def storeString (b : Buffer Char) (p : ℕ) (s : Str) : Option (Buffer Char) :=
  b.write? p (s ++ ['\x00'])

/-! ## Terminators -/

theorem nul_not_mem_cstr (s : Str) : '\x00' ∉ cstr s := by
  intro h
  simpa using List.mem_takeWhile_imp h

theorem cstr_append {s : Str} (h : '\x00' ∉ s) (t : Str) : cstr (s ++ t) = s ++ cstr t := by
  refine List.takeWhile_append_of_pos fun c hc => ?_
  rw [decide_eq_true_eq]
  rintro rfl
  exact h hc

theorem cstr_append_nul (s t : Str) : cstr (s ++ '\x00' :: t) = cstr s := by
  induction s with
  | nil => rfl
  | cons c s ih =>
      by_cases hc : c = '\x00'
      · simp [cstr, hc]
      · simpa [cstr, hc] using ih

/-! ## Stores -/

section
variable {b b' : Buffer Char} {p : ℕ} {s : Str}

theorem storeString_eq_some (h : storeString b p s = some b') :
    p + s.length < b.size ∧ b' = b.blit p (s ++ ['\x00']) := by
  unfold storeString Buffer.write? at h
  split at h
  · rename_i hle
    rw [List.length_append, List.length_singleton] at hle
    exact ⟨by omega, (Option.some.inj h).symm⟩
  · cases h

theorem storeString_of_lt (h : p + s.length < b.size) :
    storeString b p s = some (b.blit p (s ++ ['\x00'])) :=
  Buffer.write?_of_le (by rw [List.length_append, List.length_singleton]; omega)

theorem storeString_eq_none (h : b.size ≤ p + s.length) : storeString b p s = none := by
  rw [storeString, Buffer.write?, List.length_append, List.length_singleton, if_neg (by omega)]

theorem size_of_storeString (h : storeString b p s = some b') : b'.size = b.size := by
  rw [(storeString_eq_some h).2, Buffer.size_blit]

/-- What stands before the string is left alone. -/
theorem slice_of_storeString (h : storeString b p s = some b') {n : ℕ} (hn : n ≤ p) :
    b'.slice 0 n = b.slice 0 n := by
  rw [(storeString_eq_some h).2, Buffer.slice_blit_of_disjoint b (.inl (by omega))]

theorem stringAt_of_storeString (h : storeString b p s = some b') : stringAt b' p = cstr s := by
  obtain ⟨hlt, rfl⟩ := storeString_eq_some h
  have hsize : (b.blit p (s ++ ['\x00'])).size - p =
      (s ++ ['\x00']).length + (b.size - (p + s.length + 1)) := by
    rw [Buffer.size_blit, List.length_append, List.length_singleton]
    omega
  rw [stringAt, hsize, Buffer.slice_append, Buffer.slice_blit_self, List.append_assoc,
    List.singleton_append, cstr_append_nul]

/-- The first byte of the string that was stored. -/
theorem cell_of_storeString (h : storeString b p s = some b') :
    b'.cell p = s.head?.getD '\x00' := by
  obtain ⟨-, rfl⟩ := storeString_eq_some h
  have hpos : 0 < (s ++ ['\x00']).length := by simp
  have hcell := b.cell_blit_of_mem p hpos
  rw [Nat.add_zero] at hcell
  rw [hcell]
  cases s <;> rfl

end

/-! ## Strings and the bytes around them -/

section
variable {b : Buffer Char} {p : ℕ}

theorem stringAt_zero (hp : p ≤ b.size) (hnul : '\x00' ∉ b.slice 0 p) :
    stringAt b 0 = b.slice 0 p ++ stringAt b p := by
  have hsize : b.size - 0 = p + (b.size - p) := by omega
  rw [stringAt, hsize, Buffer.slice_append, cstr_append hnul, Nat.zero_add, stringAt]

/-- The string is the part of its block that its length says. -/
theorem slice_stringAt (b : Buffer Char) (p : ℕ) :
    b.slice p (stringAt b p).length = stringAt b p ∧ (stringAt b p).length ≤ b.size - p := by
  have hwindow : stringAt b p <+: b.slice p (b.size - p) := List.takeWhile_prefix _
  have hle : (stringAt b p).length ≤ b.size - p := by
    simpa only [Buffer.length_slice] using hwindow.length_le
  have htake := List.prefix_iff_eq_take.mp hwindow
  rw [Buffer.take_slice b p hle] at htake
  exact ⟨htake.symm, hle⟩

theorem getElem?_stringAt {i : ℕ} (h : i < (stringAt b p).length) :
    (stringAt b p)[i]? = some (b.cell (p + i)) := by
  obtain ⟨hslice, -⟩ := slice_stringAt b p
  rw [← hslice, List.getElem?_eq_getElem (by rwa [Buffer.length_slice]), Buffer.getElem_slice]

/-- A terminator in place of the last byte. -/
theorem stringAt_chop {l : ℕ} (hl : (stringAt b p).length = l + 1) :
    stringAt (b.blit (p + l) ['\x00']) p = (stringAt b p).dropLast := by
  obtain ⟨hslice, hle⟩ := slice_stringAt b p
  rw [hl] at hslice hle
  have hfirst : b.slice p l = (stringAt b p).dropLast := by
    rw [← hslice, List.dropLast_eq_take, Buffer.length_slice, Nat.add_sub_cancel,
      Buffer.take_slice b p (Nat.le_succ l)]
  have hnul : '\x00' ∉ b.slice p l := by
    rw [hfirst]
    exact fun hmem => nul_not_mem_cstr _ (List.mem_of_mem_dropLast hmem)
  have hsize : b.size - p = l + (1 + (b.size - p - (l + 1))) := by omega
  have hterm : (b.blit (p + l) ['\x00']).slice (p + l) 1 = ['\x00'] :=
    b.slice_blit_self (p + l) ['\x00']
  rw [stringAt, Buffer.size_blit, hsize, Buffer.slice_append, Buffer.slice_append, hterm,
    Buffer.slice_blit_of_disjoint b (.inl (Nat.le_refl _)), List.singleton_append,
    cstr_append_nul, cstr_eq_self hnul, hfirst]

end

end Text
