import RqRoute.Library.Paired
import RqRoute.Verification.Codec.MemBlocks
import RqRoute.Verification.Codec.StaleFree
import RqRoute.Verification.Codeblockstate.Reconstruct

/-! # Decoding in borrowed memory

Two code blocks that hold the same symbols give the same data, whatever is left in the
memory that the codec and the program work in. -/

namespace RqRoute

open Checked Memory Chunks

variable {M : Type}

/-! ## The memory that is asked for -/

namespace Roomy

variable {api : RqApi M} {K nExtra nOut : ℤ} {T : ℕ} {m : DataMem M}

/-! Filling the blocks does not change their sizes. -/

theorem setInterWork (h : Roomy api K nExtra nOut T m.codec_mem) (c : M) :
    Roomy api K nExtra nOut T (m.setInterWork c).codec_mem :=
  ⟨h.interWork, h.interProg, h.interSym, h.outWork, h.outProg⟩

theorem setInterProg (h : Roomy api K nExtra nOut T m.codec_mem) (c : M) :
    Roomy api K nExtra nOut T (m.setInterProg c).codec_mem :=
  ⟨h.interWork, h.interProg, h.interSym, h.outWork, h.outProg⟩

theorem setInterSym (h : Roomy api K nExtra nOut T m.codec_mem) (c : Bytes) :
    Roomy api K nExtra nOut T (m.setInterSym c).codec_mem :=
  ⟨h.interWork, h.interProg, h.interSym, h.outWork, h.outProg⟩

theorem setOutWork (h : Roomy api K nExtra nOut T m.codec_mem) (c : M) :
    Roomy api K nExtra nOut T (m.setOutWork c).codec_mem :=
  ⟨h.interWork, h.interProg, h.interSym, h.outWork, h.outProg⟩

end Roomy

/-! ## The symbols that are passed -/

/-- The stored symbols, one after the other. -/
def storedSymbols (T : ℕ) (kept : List (ℤ × List UInt8)) : List UInt8 :=
  kept.flatMap fun p => padSym T p.2

theorem Codeblockstate.Holds.slice_syms {C : Codeblockstate} {K T : ℕ}
    {kept : List (ℤ × List UInt8)} (h : C.Holds K T kept) :
    C.syms_buf.slice 0 (T * kept.length) = storedSymbols T kept := by
  suffices htake : ∀ n ≤ kept.length,
      C.syms_buf.slice 0 (T * n) = storedSymbols T (kept.take n) by
    have hall := htake kept.length le_rfl
    rwa [List.take_length] at hall
  intro n hn
  induction n with
  | zero => rfl
  | succ n ih =>
      have hlt : n < kept.length := by omega
      rw [Nat.mul_succ, Buffer.slice_append, ih (by omega), Nat.zero_add, h.syms n hlt,
        ← List.take_append_getElem hlt, storedSymbols, storedSymbols, List.flatMap_append,
        List.flatMap_singleton]

/-! ## Pairs of memories -/

/-- The first `n` bytes of the source block are the same. -/
def SameOut (n : ℕ) (m m' : DataMem M) : Prop :=
  m.data_out.slice 0 n = m'.data_out.slice 0 n

/-- The same exit, with the same source block. -/
def SameExit (n : ℕ) (r r' : DataExit × DataMem M) : Prop :=
  r.1 = r'.1 ∧ SameOut n r.2 r'.2

/-- Two memories with the same source block, and what holds of each of them. -/
def Aligned (n : ℕ) (P : DataMem M → Prop) (m m' : DataMem M) : Prop :=
  SameOut n m m' ∧ P m ∧ P m'

theorem runNofail_paired {n : ℕ} {rc rc' : ℤ} (hrc : rc' = rc) {m m' : DataMem M}
    {P : DataMem M → DataMem M → Prop} (hout : SameOut n m m') (hP : 0 ≤ rc → P m m') :
    Paired (SameExit n) P (runNofail rc m) (runNofail rc' m') := by
  subst hrc
  unfold runNofail
  split
  · exact .error ⟨rfl, hout⟩
  · exact .ok (hP (by omega))

/-! ## Two runs of the decoder -/

section
variable {host host' : Host M} (codec : StaleFree host.toRqApi)
  (hsame : host'.toRqApi = host.toRqApi) {C C' : Codeblockstate} {K T : ℕ}
  {kept : List (ℤ × List UInt8)} (h : C.Holds K T kept) (h' : C'.Holds K T kept)

include hsame

theorem interAddEsis_congr (work : M) (ids : List ℤ) :
    interAddEsis host' work ids = interAddEsis host work ids := by
  induction ids generalizing work with
  | nil => rfl
  | cons id ids ih =>
      unfold interAddEsis
      rw [hsame]
      simp only [ih]

omit hsame in
/-- Adding the ids one by one, to two work areas that went through the same calls. -/
theorem interAddEsis_determined (added : List ℤ) {nExtra : ℤ} {ids : List ℤ} {work work' : M}
    (hw : codec.InterWork K nExtra ids work) (hw' : codec.InterWork K nExtra ids work') :
    (interAddEsis host work' added).1 = (interAddEsis host work added).1 ∧
      (0 ≤ (interAddEsis host work added).1 →
        codec.InterWork K nExtra (ids ++ added) (interAddEsis host work added).2 ∧
        codec.InterWork K nExtra (ids ++ added) (interAddEsis host work' added).2) := by
  induction added generalizing ids work work' with
  | nil => simpa [interAddEsis] using ⟨hw, hw'⟩
  | cons id added ih =>
      obtain ⟨rc, hrc⟩ := codec.interAddIds K nExtra ids id 1
      obtain ⟨hcode, hnext⟩ := hrc work hw
      obtain ⟨hcode', hnext'⟩ := hrc work' hw'
      rw [idRange_one] at hnext hnext'
      unfold interAddEsis
      simp only [hcode, hcode']
      by_cases hneg : rc < 0
      · simp only [if_pos hneg]
        exact ⟨by rw [hcode, hcode'], fun h => absurd h (by rw [hcode]; omega)⟩
      · simp only [if_neg hneg]
        have hrest := ih (hnext (by omega)) (hnext' (by omega))
        rwa [List.append_assoc, List.singleton_append] at hrest

include codec h h'

theorem interBlock_paired {nOut : ℤ} {n : ℕ} {m m' : DataMem M}
    (hm : Aligned n (fun m => Roomy host.toRqApi K (kept.length - K : ℤ) nOut T m.codec_mem) m m') :
    Paired (SameExit n)
      (Aligned n fun m => Roomy host.toRqApi K (kept.length - K : ℤ) nOut T m.codec_mem ∧
        codec.Inter K (kept.length - K : ℤ) (kept.map Prod.fst) T (storedSymbols T kept)
          m.codec_mem.interSymMem.contents)
      (interBlock host C m) (interBlock host' C' m') := by
  obtain ⟨hout, hroom, hroom'⟩ := hm
  unfold interBlock
  simp only [interAddEsis_congr hsame, hsame, h.K_eq, h'.K_eq, h.n_esi_eq, h'.n_esi_eq, h.T_eq,
    h'.T_eq, h.max_eq, h'.max_eq, h.esis_eq, h'.esis_eq]
  refine Paired.bind (P := Aligned n fun m =>
    Roomy host.toRqApi K (kept.length - K : ℤ) nOut T m.codec_mem ∧
      codec.InterWork K (kept.length - K : ℤ) [] m.codec_mem.interWorkMem.contents) ?_ ?_
  · obtain ⟨rc, hinit⟩ := codec.interInit K (kept.length - K)
    obtain ⟨hcode, hwork⟩ := hinit m.codec_mem.interWorkMem.contents _ hroom.interWork
    obtain ⟨hcode', hwork'⟩ := hinit m'.codec_mem.interWorkMem.contents _ hroom'.interWork
    exact runNofail_paired (hcode'.trans hcode.symm) hout fun hrc =>
      ⟨hout, ⟨hroom.setInterWork _, hwork (hcode ▸ hrc)⟩,
        ⟨hroom'.setInterWork _, hwork' (hcode ▸ hrc)⟩⟩
  rintro m m' ⟨hout, ⟨hroom, hwork⟩, hroom', hwork'⟩
  refine Paired.bind (P := Aligned n fun m =>
    Roomy host.toRqApi K (kept.length - K : ℤ) nOut T m.codec_mem ∧
      codec.InterWork K (kept.length - K : ℤ) (kept.map Prod.fst)
        m.codec_mem.interWorkMem.contents) ?_ ?_
  · obtain ⟨hcode, hadd⟩ := interAddEsis_determined codec (kept.map Prod.fst) hwork hwork'
    refine runNofail_paired hcode hout fun hrc => ?_
    obtain ⟨hwork, hwork'⟩ := hadd hrc
    exact ⟨hout, ⟨hroom.setInterWork _, hwork⟩, ⟨hroom'.setInterWork _, hwork'⟩⟩
  rintro m m' ⟨hout, ⟨hroom, hwork⟩, hroom', hwork'⟩
  obtain ⟨rc, hcompile⟩ := codec.interCompile K (kept.length - K) (kept.map Prod.fst)
  obtain ⟨hcode, hprog⟩ := hcompile _ m.codec_mem.interProgMem.contents _ hwork hroom.interProg
  obtain ⟨hcode', hprog'⟩ := hcompile _ m'.codec_mem.interProgMem.contents _ hwork' hroom'.interProg
  simp only [hcode, hcode']
  split
  · exact .error ⟨rfl, hout⟩
  · split
    · exact .error ⟨rfl, hout⟩
    · rename_i hzero
      push Not at hzero
      obtain ⟨rcExec, hexec⟩ := codec.interExecute K (kept.length - K) (kept.map Prod.fst) T
        (storedSymbols T kept)
      have hlen : (kept.map Prod.fst).length = kept.length := List.length_map _
      have hsyms := h.slice_syms
      have hsyms' := h'.slice_syms
      rw [← hlen] at hsyms hsyms'
      have hfit : T * (kept.map Prod.fst).length ≤ T * (K + 30) := by
        rw [hlen]
        exact Nat.mul_le_mul_left T h.kept_le
      obtain ⟨hcode₁, hinter⟩ := hexec _ C.syms_buf.cell _ m.codec_mem.interSymMem.contents _
        (hprog (by omega)) hsyms hfit hroom.interSym
      obtain ⟨hcode₁', hinter'⟩ := hexec _ C'.syms_buf.cell _ m'.codec_mem.interSymMem.contents _
        (hprog' (by omega)) hsyms' hfit hroom'.interSym
      exact runNofail_paired (hcode₁'.trans hcode₁.symm) hout fun hrc =>
        ⟨hout, ⟨((hroom.setInterWork _).setInterProg _).setInterSym _, hinter (hcode₁ ▸ hrc)⟩,
          ⟨((hroom'.setInterWork _).setInterProg _).setInterSym _, hinter' (hcode₁ ▸ hrc)⟩⟩

theorem outBlock_paired {nExtra : ℤ} {sz : ℕ} (hsz : T * K ≤ sz) {m m' : DataMem M}
    (hm : Aligned (T * K) (fun m => Roomy host.toRqApi K nExtra K T m.codec_mem ∧
      codec.Inter K nExtra (kept.map Prod.fst) T (storedSymbols T kept)
        m.codec_mem.interSymMem.contents) m m') :
    Paired (SameExit (T * K)) (SameOut (T * K)) (outBlock host C sz m)
      (outBlock host' C' sz m') := by
  obtain ⟨hout, ⟨hroom, hinter⟩, hroom', hinter'⟩ := hm
  unfold outBlock
  simp only [hsame, h.K_eq, h'.K_eq, h.T_eq, h'.T_eq]
  refine Paired.bind (P := Aligned (T * K) fun m =>
    (Roomy host.toRqApi K nExtra K T m.codec_mem ∧
      codec.Inter K nExtra (kept.map Prod.fst) T (storedSymbols T kept)
        m.codec_mem.interSymMem.contents) ∧
      codec.OutWork K K [] m.codec_mem.outWorkMem.contents) ?_ ?_
  · obtain ⟨rc, hinit⟩ := codec.outInit K K
    obtain ⟨hcode, hwork⟩ := hinit m.codec_mem.outWorkMem.contents _ hroom.outWork
    obtain ⟨hcode', hwork'⟩ := hinit m'.codec_mem.outWorkMem.contents _ hroom'.outWork
    exact runNofail_paired (hcode'.trans hcode.symm) hout fun hrc =>
      ⟨hout, ⟨⟨hroom.setOutWork _, hinter⟩, hwork (hcode ▸ hrc)⟩,
        ⟨⟨hroom'.setOutWork _, hinter'⟩, hwork' (hcode ▸ hrc)⟩⟩
  rintro m m' ⟨hout, ⟨⟨hroom, hinter⟩, hwork⟩, ⟨hroom', hinter'⟩, hwork'⟩
  refine Paired.bind (P := Aligned (T * K) fun m =>
    (Roomy host.toRqApi K nExtra K T m.codec_mem ∧
      codec.Inter K nExtra (kept.map Prod.fst) T (storedSymbols T kept)
        m.codec_mem.interSymMem.contents) ∧
      codec.OutWork K K (idRange 0 K) m.codec_mem.outWorkMem.contents) ?_ ?_
  · obtain ⟨rc, hadd⟩ := codec.outAddIds K K [] 0 K
    obtain ⟨hcode, hwork⟩ := hadd _ hwork
    obtain ⟨hcode', hwork'⟩ := hadd _ hwork'
    exact runNofail_paired (hcode'.trans hcode.symm) hout fun hrc =>
      ⟨hout, ⟨⟨hroom.setOutWork _, hinter⟩, hwork (hcode ▸ hrc)⟩,
        ⟨⟨hroom'.setOutWork _, hinter'⟩, hwork' (hcode ▸ hrc)⟩⟩
  rintro m m' ⟨hout, ⟨⟨hroom, hinter⟩, hwork⟩, ⟨hroom', hinter'⟩, hwork'⟩
  refine Paired.bind (P := Aligned (T * K) fun m =>
    codec.Inter K nExtra (kept.map Prod.fst) T (storedSymbols T kept)
      m.codec_mem.interSymMem.contents ∧
      codec.OutProg K K (idRange 0 K) m.codec_mem.outProgMem.contents) ?_ ?_
  · obtain ⟨rc, hcompile⟩ := codec.outCompile K K (idRange 0 K)
    obtain ⟨hcode, hprog⟩ := hcompile _ m.codec_mem.outProgMem.contents _ hwork hroom.outProg
    obtain ⟨hcode', hprog'⟩ := hcompile _ m'.codec_mem.outProgMem.contents _ hwork' hroom'.outProg
    exact runNofail_paired (hcode'.trans hcode.symm) hout fun hrc =>
      ⟨hout, ⟨hinter, hprog (hcode ▸ hrc)⟩, ⟨hinter', hprog' (hcode ▸ hrc)⟩⟩
  rintro m m' ⟨hout, ⟨hinter, hprog⟩, hinter', hprog'⟩
  obtain ⟨rc, new, hexec⟩ := codec.outExecute K nExtra (kept.map Prod.fst) T (storedSymbols T kept)
    K (idRange 0 K) (m.data_out.slice 0 (T * K))
  have hlen : (idRange 0 K).length = K := by simp
  rw [hlen] at hexec
  obtain ⟨hcode, hnew⟩ := hexec _ _ m.data_out.cell sz hprog hinter rfl hsz
  obtain ⟨hcode', hnew'⟩ := hexec _ _ m'.data_out.cell sz hprog' hinter' hout.symm hsz
  exact runNofail_paired (hcode'.trans hcode.symm) (hnew.trans hnew'.symm) fun _ =>
    hnew.trans hnew'.symm

theorem decodeBlock_paired {sz : ℕ} (hsz : T * K ≤ sz) {m m' : DataMem M}
    (hout : SameOut (T * K) m m') :
    Paired (SameExit (T * K)) (SameOut (T * K)) (decodeBlock host C sz m)
      (decodeBlock host' C' sz m') := by
  unfold decodeBlock
  rw [h.K_eq, h'.K_eq, h.T_eq, h'.T_eq, h.n_esi_eq, h'.n_esi_eq]
  obtain ⟨hcode, hroom⟩ := rqMemBlocksIncludeCase_spec host m.codec_mem K (kept.length - K) K T
  obtain ⟨hcode', hroom'⟩ := rqMemBlocksIncludeCase_spec host' m'.codec_mem K (kept.length - K) K T
  rw [hsame] at hcode' hroom'
  refine Paired.bind (P := Aligned (T * K) fun m =>
    Roomy host.toRqApi K (kept.length - K : ℤ) K T m.codec_mem) ?_ fun m m' hm => ?_
  · exact runNofail_paired (hcode'.trans hcode.symm) hout fun hrc =>
      ⟨hout, hroom hrc, hroom' ((hcode'.trans hcode.symm) ▸ hrc)⟩
  · exact (interBlock_paired codec hsame h h' hm).bind fun m m' hm =>
      outBlock_paired codec hsame h h' hsz hm

/-- What `codeblockstate_get_data` returns, and what it leaves in the source block, depends
on the stored symbols alone. -/
theorem getData_determined {sz : ℕ} (hsz : K * T ≤ sz) {m m' m₁ m₁' : DataMem M}
    (hsize : K * T ≤ m.data_out.size) (hsize' : K * T ≤ m'.data_out.size) {exit exit' : DataExit}
    (hget : codeblockstateGetData host C sz m = .ok (exit, m₁))
    (hget' : codeblockstateGetData host' C' sz m' = .ok (exit', m₁')) :
    exit = exit' ∧ SameOut (T * K) m₁ m₁' := by
  obtain ⟨_, _, hok, hspec⟩ := h.getData host hsz hsize
  obtain ⟨_, _, hok', hspec'⟩ := h'.getData host' hsz hsize'
  cases hget.symm.trans hok
  cases hget'.symm.trans hok'
  -- where the copying loop ran, the stored symbols say what the source block holds
  have hcopied : exit = exit' → (exit = .allSource ∨ exit = .tooFew ∨ exit = .insuffIds) →
      SameOut (T * K) m₁ m₁' := by
    rintro rfl hexit
    exact slice_congr_chunks K fun i hi =>
      (hspec.copied hexit i hi).trans (hspec'.copied hexit i hi).symm
  have hsrc : C'.n_src_esi = C.n_src_esi := h'.n_src_eq.trans h.n_src_eq.symm
  by_cases hcopy : C.n_src_esi ≥ K ∨ kept.length < K
  · obtain ⟨_, hcp, -⟩ := h.getData_copied host hsz hsize hcopy
    obtain ⟨_, hcp', -⟩ := h'.getData_copied host' hsz hsize' (hsrc ▸ hcopy)
    cases hget.symm.trans hcp
    cases hget'.symm.trans hcp'
    have hexit : (if C.n_src_esi ≥ K then DataExit.allSource else .tooFew) =
        if C'.n_src_esi ≥ K then .allSource else .tooFew := by rw [hsrc]
    refine ⟨hexit, hcopied hexit ?_⟩
    split <;> simp
  · have hclear : SameOut (T * K) { m with data_out := clearedBlock K T m.data_out }
        { m' with data_out := clearedBlock K T m'.data_out } :=
      slice_congr_chunks K fun i hi =>
        (slice_clearedBlock _ hi).trans (slice_clearedBlock _ hi).symm
    have hroom : T * K ≤ sz := by rwa [Nat.mul_comm]
    have hpair := decodeBlock_paired codec hsame h h' hroom hclear
    rcases h.getData_decoded hsz hsize hcopy hget with ⟨rfl, hdec⟩ | ⟨m₂, hdec, hm⟩
    · rcases h'.getData_decoded hsz hsize' (hsrc ▸ hcopy) hget' with ⟨rfl, hdec'⟩ | ⟨m₂', hdec', -⟩
      · rw [hdec, hdec'] at hpair
        cases hpair with
        | ok hout => exact ⟨rfl, hout⟩
      · rw [hdec, hdec'] at hpair
        cases hpair
    · rcases h'.getData_decoded hsz hsize' (hsrc ▸ hcopy) hget' with
        ⟨rfl, hdec'⟩ | ⟨m₂', hdec', hm'⟩
      · rw [hdec, hdec'] at hpair
        cases hpair
      · rw [hdec, hdec'] at hpair
        cases hpair with
        | error hsameExit =>
            obtain ⟨heq, hout⟩ := hsameExit
            simp only at heq
            refine ⟨heq, ?_⟩
            by_cases hins : exit = .insuffIds
            · exact hcopied heq (.inr (.inr hins))
            · rw [hm hins, hm' (heq ▸ hins)]
              exact hout

end

end RqRoute
