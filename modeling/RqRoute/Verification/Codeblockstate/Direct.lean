import RqRoute.Verification.Codec.Contract
import RqRoute.Verification.Codeblockstate.Reconstruct

/-! # Reconstruction without the decoder

When all source symbols are there, or too few symbols to decode, the source block is put
together from the symbols themselves. -/

namespace RqRoute

open Checked Memory Dedup

variable {M : Type}

/-- `codeblockstate_add_sym` calls, one after the other. -/
def addSyms (C : Codeblockstate) (syms : List (ℤ × List UInt8)) : Except Fault Codeblockstate :=
  syms.foldlM (fun C s => codeblockstateAddSym C s.1 s.2) C

/-- The payload that came first with an id. -/
def firstPayload (syms : List (ℤ × List UInt8)) (id : ℤ) : List UInt8 :=
  ((syms.find? fun s => s.1 = id).map Prod.snd).getD []

/-- Source symbol `i` when only the symbols with the given ids are stored: its first payload,
padded with zeros, or zeros. -/
def heldSymbol (T : ℕ) (ids : List ℤ) (syms : List (ℤ × List UInt8)) (i : ℕ) : List UInt8 :=
  if (i : ℤ) ∈ ids then padSym T (firstPayload syms i) else List.replicate T 0

/-- A symbol that `codeblockstate_add_sym` can be given: the hash of its id does not overflow,
and its payload is no longer than a symbol. -/
structure SymFor (T : ℕ) (s : ℤ × List UInt8) : Prop where
  id : HashableId s.1
  payload : s.2.length ≤ T

instance (T : ℕ) (s : ℤ × List UInt8) : Decidable (SymFor T s) :=
  decidable_of_iff ((0 ≤ s.1 ∧ FitsInt (s.1 * hMult)) ∧ s.2.length ≤ T)
    ⟨fun h => ⟨h.1, h.2⟩, fun h => ⟨h.id, h.payload⟩⟩

theorem addSyms_append_singleton (C : Codeblockstate) (syms : List (ℤ × List UInt8))
    (s : ℤ × List UInt8) :
    addSyms C (syms ++ [s]) = addSyms C syms >>= fun C => codeblockstateAddSym C s.1 s.2 := by
  simp [addSyms]

/-- The calls never fail, and the code block holds what the store keeps. -/
theorem addSyms_holds (host : Host M) (K T : ℕ) (syms : List (ℤ × List UInt8))
    (hsyms : ∀ s ∈ syms, SymFor T s) :
    ∃ C, addSyms (codeblockstateInit host K T) syms = .ok C ∧
      C.Holds K T (retainAll (K + 30) syms) := by
  induction syms using List.reverseRecOn with
  | nil => exact ⟨_, rfl, holds_codeblockstateInit host K T⟩
  | append_singleton syms s ih =>
      obtain ⟨C, hadd, hholds⟩ := ih fun t ht => hsyms t (by simp [ht])
      have hs := hsyms s (by simp)
      obtain ⟨C', hadd', hholds'⟩ := hholds.addSym hs.id hs.payload
      refine ⟨C', ?_, ?_⟩
      · rw [addSyms_append_singleton, hadd, ok_bind, hadd']
      · rw [retainAll_append_singleton]
        exact hholds'

/-- The kept symbols are those that came first. -/
theorem zeroFilled_retainAll (T cap : ℕ) (syms : List (ℤ × List UInt8)) (i : ℕ) :
    zeroFilled T (retainAll cap syms) i =
      heldSymbol T ((retainAll cap syms).map Prod.fst) syms i := by
  unfold zeroFilled heldSymbol
  cases hfind : (retainAll cap syms).find? fun p => p.1 = (i : ℤ) with
  | none =>
      rw [if_neg]
      intro hmem
      obtain ⟨p, hp, hpi⟩ := List.mem_map.mp hmem
      exact absurd hpi (by simpa using List.find?_eq_none.mp hfind p hp)
  | some p =>
      have hp := List.mem_of_find?_eq_some hfind
      have hpi : p.1 = (i : ℤ) := by simpa using List.find?_some hfind
      rw [if_pos (List.mem_map.mpr ⟨p, hp, hpi⟩), firstPayload, ← hpi, find?_of_mem_retainAll hp]
      rfl

namespace Codeblockstate.Holds

variable {C : Codeblockstate} {K T : ℕ} {kept : List (ℤ × List UInt8)}

theorem n_src_eq_countP_esis (h : C.Holds K T kept) :
    C.n_src_esi = C.esis.countP fun id => id < (K : ℤ) := by
  rw [h.n_src_eq, h.esis_eq, List.countP_map]
  rfl

theorem allSource_iff_esis (h : C.Holds K T kept) :
    AllSource K kept ↔ ∀ i < K, (i : ℤ) ∈ C.esis := by
  rw [h.esis_eq]
  simp only [AllSource, List.mem_map]

/-- The stored source ids are distinct numbers below `K`. -/
theorem n_src_le (h : C.Holds K T kept) : C.n_src_esi ≤ K := by
  have hsub : ((kept.map Prod.fst).filter fun id => id < (K : ℤ)) ⊆ sourceIds K := by
    intro id hid
    obtain ⟨hmem, hlt⟩ := List.mem_filter.mp hid
    obtain ⟨p, hp, rfl⟩ := List.mem_map.mp hmem
    exact mem_sourceIds.mpr ⟨(h.ids p hp).1, by simpa using hlt⟩
  have hlen := ((h.nodup.filter _).subperm hsub).length_le
  rwa [length_sourceIds, ← List.countP_eq_length_filter, ← h.esis_eq,
    ← h.n_src_eq_countP_esis] at hlen

end Codeblockstate.Holds

/-! ## Sizes in `int` -/

/-- What `codeblockstate.c` keeps and computes in variables of type `int`. -/
def Codeblockstate.ints (C : Codeblockstate) : List ℤ :=
  [C.K, C.T, C.n_esi_max, (C.n_esi_max * 5 : ℕ), C.hash_esi_sz, (C.T * C.n_esi_max : ℕ),
    (C.T * C.n_esi : ℕ), (C.K * C.T : ℕ)]

/-- None of it overflows. -/
def Codeblockstate.IntsFit (C : Codeblockstate) : Prop := ∀ x ∈ C.ints, FitsInt x

instance (C : Codeblockstate) : Decidable C.IntsFit :=
  inferInstanceAs (Decidable (∀ x ∈ C.ints, FitsInt x))

theorem hashEsiSize_le (n : ℕ) : hashEsiSize n ≤ n * 5 / 2 + 1 := by
  simp only [hashEsiSize]
  split <;> omega

theorem Codeblockstate.Holds.intsFit {C : Codeblockstate} {K T : ℕ}
    {kept : List (ℤ × List UInt8)} (h : C.Holds K T kept) (htable : 5 * (K + 30) < 2 ^ 31)
    (hbuf : T * (K + 30) < 2 ^ 31) : C.IntsFit := by
  have hsz := hashEsiSize_le (K + 30)
  have hT : T * 1 ≤ T * (K + 30) := Nat.mul_le_mul_left T (by omega)
  have hoffs : T * kept.length ≤ T * (K + 30) := Nat.mul_le_mul_left T h.kept_le
  have hdata : K * T ≤ T * (K + 30) := by
    rw [Nat.mul_comm]
    exact Nat.mul_le_mul_left T (by omega)
  intro x hx
  simp only [Codeblockstate.ints, h.K_eq, h.T_eq, h.max_eq, h.n_esi_eq, h.sz_eq, List.mem_cons,
    List.not_mem_nil, or_false] at hx
  unfold FitsInt
  rcases hx with rfl | rfl | rfl | rfl | rfl | rfl | rfl | rfl <;> omega

/-! ## The theorem -/

/-- Whatever symbols arrive, in whatever order and however often, the counter of the source
symbols says how many of them are stored, and all of them are when it says `K`. When
`codeblockstate_get_data` copies, it puts each stored source symbol in its place and zeros in
the others, touches nothing else, and returns true exactly when no source symbol is missing.
The sizes are those that no `int` overflows for. -/
theorem direct_reconstruction (host : Host M) (K T : ℕ) (syms : List (ℤ × List UInt8))
    (hsyms : ∀ s ∈ syms, SymFor T s) (htable : 5 * (K + 30) < 2 ^ 31)
    (hbuf : T * (K + 30) < 2 ^ 31) :
    ∃ C, addSyms (codeblockstateInit host K T) syms = .ok C ∧ C.IntsFit ∧
      C.esis = (syms.map Prod.fst).eraseDups.take (K + 30) ∧ C.n_esi = C.esis.length ∧
      C.n_src_esi = (C.esis.countP fun id => id < (K : ℤ)) ∧ C.n_src_esi ≤ K ∧
      (C.n_src_esi ≥ K ↔ ∀ i < K, (i : ℤ) ∈ C.esis) ∧
      ∀ (sz : ℕ) (m : DataMem M), K * T ≤ sz → K * T ≤ m.data_out.size →
        C.n_src_esi ≥ K ∨ C.n_esi < K →
        ∃ exit out', codeblockstateGetData host C sz m = .ok (exit, { m with data_out := out' }) ∧
          out'.size = m.data_out.size ∧
          (∀ j, K * T ≤ j → out'.cell j = m.data_out.cell j) ∧
          (∀ i < K, out'.slice (i * T) T = heldSymbol T C.esis syms i) ∧
          (exit.ret = true ↔ ∀ i < K, (i : ℤ) ∈ C.esis) := by
  obtain ⟨C, hadd, hholds⟩ := addSyms_holds host K T syms hsyms
  have hall : (∀ i < K, (i : ℤ) ∈ C.esis) ↔ C.n_src_esi ≥ K :=
    hholds.allSource_iff_esis.symm.trans hholds.allSource_iff
  refine ⟨C, hadd, hholds.intsFit htable hbuf, ?_, ?_, hholds.n_src_eq_countP_esis,
    hholds.n_src_le, hall.symm, ?_⟩
  · rw [hholds.esis_eq, keys_retainAll]
  · rw [hholds.n_esi_eq, hholds.esis_eq, List.length_map]
  · intro sz m hsz hsize hcopy
    rw [hholds.n_esi_eq] at hcopy
    obtain ⟨out', hget, hout', htail, hslice⟩ := hholds.getData_copied host hsz hsize hcopy
    refine ⟨_, out', hget, hout', htail, fun i hi => ?_, ?_⟩
    · rw [hslice i hi, zeroFilled_retainAll, hholds.esis_eq]
    · rw [hall]
      split <;> rename_i hsrc <;> simp [DataExit.ret, hsrc]

/-- One of two source symbols, and a repetition of it. -/
theorem direct_reconstruction_missing :
    ∃ C exit out', addSyms (codeblockstateInit refusingHost 2 3) [(1, [7]), (1, [8])] = .ok C ∧
      codeblockstateGetData refusingHost C 6
        { codec_mem := .zero refusingHost, data_out := { size := 6, cell := fun _ => 1 } } =
          .ok (exit, { codec_mem := .zero refusingHost, data_out := out' }) ∧
      out'.slice 0 3 = [0, 0, 0] ∧ out'.slice 3 3 = [7, 0, 0] ∧ exit.ret = false := by
  obtain ⟨C, hadd, -, hids, hn, -, -, -, hget⟩ :=
    direct_reconstruction refusingHost 2 3 [(1, [7]), (1, [8])] (by decide) (by decide) (by decide)
  have hids' : C.esis = [1] := hids.trans (by decide)
  obtain ⟨exit, out', hdata, -, -, hslice, hret⟩ := hget 6
    { codec_mem := .zero refusingHost, data_out := { size := 6, cell := fun _ => 1 } }
    (by decide) (by decide) (.inr (by rw [hn, hids']; decide))
  rw [hids'] at hslice hret
  refine ⟨C, exit, out', hadd, hdata, ?_, ?_, ?_⟩
  · exact (hslice 0 (by decide)).trans (by decide)
  · exact (hslice 1 (by decide)).trans (by decide)
  · have hno : ¬exit.ret = true := fun h => absurd (hret.mp h 0 (by decide)) (by decide)
    simpa using hno

/-- The product with `H_MULT` of the id 2^27 does not fit into an `int`; and for blocks that are
large enough, neither does the size of the hash table, or that of the symbols. -/
theorem large_id_overflows :
    addSyms (codeblockstateInit refusingHost 1 1) [(2 ^ 27, [])] = .error .intOverflow ∧
      ¬(codeblockstateInit refusingHost (2 ^ 29) 1).IntsFit ∧
      ¬(codeblockstateInit refusingHost 1 (2 ^ 27)).IntsFit := by
  have htable : (((2 ^ 29 + 30) * 5 : ℕ) : ℤ) ∈
      (codeblockstateInit refusingHost (2 ^ 29) 1).ints := by
    simp [Codeblockstate.ints, codeblockstateInit]
  have hbuf : ((2 ^ 27 * 31 : ℕ) : ℤ) ∈ (codeblockstateInit refusingHost 1 (2 ^ 27)).ints := by
    simp [Codeblockstate.ints, codeblockstateInit]
  exact ⟨rfl, fun h => absurd (h _ htable) (by decide), fun h => absurd (h _ hbuf) (by decide)⟩

end RqRoute
