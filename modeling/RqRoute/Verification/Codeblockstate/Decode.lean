import RqRoute.Verification.Codec.Contract
import RqRoute.Verification.Codeblockstate.Reconstruct

/-! # Decoding a code block

When the decoding branch runs to its end, the source block is the one whose symbols were
stored. -/

namespace RqRoute

open Checked Memory Dedup

variable {M : Type} {host : Host M} (codec : CodecContract host.toRqApi)

/-- The stored payloads are symbols of the source block `src`. -/
def StoresSymbols (codec : CodecContract host.toRqApi) (K T : ℕ) (src : ℕ → List UInt8)
    (kept : List (ℤ × List UInt8)) : Prop :=
  ∀ p ∈ kept, padSym T p.2 = codec.encode K T src p.1

/-- Adding the ids one by one. -/
theorem interAddEsis_ok {K : ℕ} {ids added : List ℤ} {work : M}
    (hwork : codec.InterWork work K ids) (hrc : 0 ≤ (interAddEsis host work added).1) :
    codec.InterWork (interAddEsis host work added).2 K (ids ++ added) := by
  induction added generalizing ids work with
  | nil => simpa [interAddEsis] using hwork
  | cons id added ih =>
      unfold interAddEsis at hrc ⊢
      by_cases hneg : (host.interAddIds work id 1).1 < 0
      · simp only [if_pos hneg] at hrc
        omega
      · simp only [if_neg hneg] at hrc ⊢
        have hstep : codec.InterWork _ K (ids ++ idRange id 1) :=
          codec.interAddIds hwork (by omega)
        rw [idRange_one] at hstep
        have hrest := ih hstep hrc
        rwa [List.append_assoc, List.singleton_append] at hrest

theorem interBlock_ok {C : Codeblockstate} {K T : ℕ} {kept : List (ℤ × List UInt8)}
    (h : C.Holds K T kept) {src : ℕ → List UInt8} (hsrc : ∀ i < K, (src i).length = T)
    (hkept : StoresSymbols codec K T src kept) {m m' : DataMem M}
    (hok : interBlock host C m = .ok m') :
    codec.Inter m'.codec_mem.interSymMem.contents K T src := by
  simp only [interBlock, h.K_eq, h.T_eq, bind_eq_ok, runNofail_eq_ok] at hok
  obtain ⟨m₁, ⟨hinit, rfl⟩, m₂, ⟨hadd, rfl⟩, hok⟩ := hok
  split at hok
  · cases hok
  · split at hok
    · cases hok
    · rename_i hzero
      push Not at hzero
      obtain ⟨hexec, rfl⟩ := runNofail_eq_ok.mp hok
      have hwork := interAddEsis_ok codec (codec.interInit hinit) hadd
      rw [List.nil_append] at hwork
      have hprog := codec.interCompile hwork (Int.le_of_eq hzero.symm)
      refine codec.interExecute hprog hsrc ?_ hexec
      intro i hi
      have hlen : i < kept.length := by simpa [h.esis_eq] using hi
      have hid : C.esis[i] = kept[i].1 := by simp [h.esis_eq]
      rw [hid, ← hkept _ (List.getElem_mem hlen), ← h.syms i hlen]
      rfl

/-- The result of a successful decoding. -/
theorem decodeBlock_ok {C : Codeblockstate} {K T : ℕ} {kept : List (ℤ × List UInt8)}
    (h : C.Holds K T kept) {src : ℕ → List UInt8} (hsrc : ∀ i < K, (src i).length = T)
    (hkept : StoresSymbols codec K T src kept) {sz : ℕ} {m m' : DataMem M}
    (hok : decodeBlock host C sz m = .ok m') {i : ℕ} (hi : i < K) :
    m'.data_out.slice (i * T) T = src i := by
  simp only [decodeBlock, bind_eq_ok, runNofail_eq_ok] at hok
  obtain ⟨m₁, ⟨-, rfl⟩, m₂, hinter, hout⟩ := hok
  have hblock := interBlock_ok codec h hsrc hkept hinter
  simp only [outBlock, h.K_eq, h.T_eq, bind_eq_ok, runNofail_eq_ok] at hout
  obtain ⟨m₃, ⟨hinit, rfl⟩, m₄, ⟨hadd, rfl⟩, m₅, ⟨hcompile, rfl⟩, hexec, rfl⟩ := hout
  have hwork := codec.outAddIds (codec.outInit hinit) hadd
  rw [List.nil_append] at hwork
  have hsyms := codec.outExecute (codec.outCompile hwork hcompile) hblock hexec i
    (by simpa using hi)
  rw [getElem_idRange, Int.zero_add, codec.systematic hi, Nat.mul_comm] at hsyms
  exact hsyms

end RqRoute
