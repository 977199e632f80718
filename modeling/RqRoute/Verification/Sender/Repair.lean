import RqRoute.Verification.Codec.Contract
import RqRoute.Verification.Sender.Emission

/-! # Repair symbols

With a codec that keeps its contract, every datagram of a file carries the symbol that its
header numbers, source and repair symbols alike. -/

namespace RqRoute

open Checked Memory Chunks Xmit

variable {M : Type} {host : Host M}

/-- The source symbols of a file. -/
def sourceSym (content : List UInt8) (i : ℕ) : List UInt8 := padSym 1024 (chunk 1024 content i)

theorem length_sourceSym (content : List UInt8) (i : ℕ) : (sourceSym content i).length = 1024 :=
  length_padSym (length_chunk_le 1024 content i)

theorem repairPrograms_ok (codec : CodecContract host.toRqApi) {sizes : XmitSizes} {K : ℕ}
    {nExtra : ℤ} {m m' : XmitMem M}
    (h : (repairPrograms host sizes K nExtra m).result = .ok m') :
    codec.InterProg m'.interProg K (idRange 0 K) ∧ codec.OutProg m'.outProg K (idRange K nExtra) ∧
      m'.srcBlock = m.srcBlock := by
  simp only [repairPrograms, result_bind_eq_ok, result_runNofail_eq_ok] at h
  obtain ⟨_, ⟨hinit, rfl⟩, _, ⟨hadd, rfl⟩, _, ⟨hcompile, rfl⟩, _, ⟨hinit', rfl⟩, _,
    ⟨hadd', rfl⟩, hcompile', rfl⟩ := h
  have hinter := codec.interCompile (codec.interAddIds (codec.interInit hinit) hadd) hcompile
  have hout := codec.outCompile (codec.outAddIds (codec.outInit hinit') hadd') hcompile'
  rw [List.nil_append] at hinter hout
  exact ⟨hinter, hout, rfl⟩

/-- The memory holds the repair symbols once they were computed. -/
theorem RepairBlock.holdsSymbols (codec : CodecContract host.toRqApi) {content : List UInt8}
    {nExtra : ℤ} {b : Buffer UInt8} (h : RepairBlock host content nExtra b) :
    HoldsSymbols codec.encode (segSymbols content.length) 1024 (sourceSym content)
      (idRange (segSymbols content.length) nExtra) b.cell := by
  obtain ⟨sizes, m, m₁, m₂, hsrc, hprog, hsym, rfl⟩ := h
  obtain ⟨hinter, hout, hkeep⟩ := repairPrograms_ok codec hprog
  have hT : (oneBlock (segSymbols content.length)).T.toNat = 1024 := rfl
  simp only [repairSymbols, hT, result_bind_eq_ok, result_runNofail_eq_ok] at hsym
  obtain ⟨_, ⟨hexec, rfl⟩, hexec', rfl⟩ := hsym
  refine codec.outExecute hout (codec.interExecute hinter ?_ ?_ hexec) hexec'
  · exact fun i _ => length_sourceSym content i
  · intro i hi
    have hK : i < segSymbols content.length := by simpa using hi
    have hslice := hsrc i hK
    rw [Nat.mul_comm, ← hkeep] at hslice
    rw [getElem_idRange, Int.zero_add, codec.systematic hK]
    exact hslice

/-- A datagram carries the symbol its header numbers. -/
theorem EmittedBy.payload_eq {api : RqApi M} (codec : CodecContract api)
    (hapi : host.toRqApi = api) {content : List UInt8} {file_nbr nExtra : ℤ} {d : Datagram}
    (hsmall : SmallFile content.length) (hextra : nExtra * 1024 < 2 ^ 31)
    (h : EmittedBy host content file_nbr nExtra d) :
    padSym 1024 d.payload = codec.encode (segSymbols content.length) 1024 (sourceSym content)
      (symbId (oneBlock (segSymbols content.length)) d.header) := by
  subst hapi
  have hK := hsmall.symbols.2.2.1
  rcases h with ⟨j, hj, rfl⟩ | ⟨j, hj, -, b, hb, rfl⟩
  · have hid := symbId_source hK (j := j) (by omega) content.length file_nbr
    rw [sourceDatagram, hid, codec.systematic hj]
    rfl
  · have hid := symbId_repair hK (j := j) (by omega) content.length file_nbr
    have hsym := RepairBlock.holdsSymbols codec hb j (by simpa using hj)
    rw [getElem_idRange] at hsym
    have hfull : padSym 1024 (b.slice (1024 * j) 1024) = b.slice (1024 * j) 1024 := by
      simp [padSym, fill]
    rw [hfull, hid]
    exact hsym

end RqRoute
