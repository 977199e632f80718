import RqRoute.Verification.Codeblockstate.Direct

/-! # When decoding fails

The decoding branch as the list of its calls, and what its exits leave in the source block
when one of them fails. -/

namespace RqRoute

open Checked Memory Dedup

variable {M : Type}

/-! ## The calls -/

/-- The calls of the decoding branch. -/
inductive DecodeCall where
  | includeCase
  | interInit
  | interAddIds (id : ℤ)
  | interCompile
  | interExecute
  | outInit
  | outAddIds
  | outCompile
  | outExecute
deriving DecidableEq, Repr

namespace DecodeCall

/-- The result code of a call, and the memory after it. -/
def run (host : Host M) (C : Codeblockstate) (sz : ℕ) (m : DataMem M) : DecodeCall → ℤ × DataMem M
  | includeCase =>
    let r := rqMemBlocksIncludeCase host m.codec_mem C.K (C.n_esi - C.K : ℤ) C.K C.T
    (r.1, { m with codec_mem := r.2 })
  | interInit =>
    let r := host.interInit C.K (C.n_esi - C.K : ℤ)
      m.codec_mem.interWorkMem.contents m.codec_mem.interWorkMem.nSize
    (r.1, m.setInterWork r.2)
  | interAddIds id =>
    let r := host.interAddIds m.codec_mem.interWorkMem.contents id 1
    (r.1, m.setInterWork r.2)
  | interCompile =>
    let r := host.interCompile m.codec_mem.interWorkMem.contents
      m.codec_mem.interProgMem.contents m.codec_mem.interProgMem.nSize
    (r.1, (m.setInterWork r.2.1).setInterProg r.2.2)
  | interExecute =>
    let r := host.interExecute m.codec_mem.interProgMem.contents C.T C.syms_buf.cell
      (C.T * C.n_esi_max) m.codec_mem.interSymMem.contents m.codec_mem.interSymMem.nSize
    (r.1, m.setInterSym r.2)
  | outInit =>
    let r := host.outInit C.K m.codec_mem.outWorkMem.contents m.codec_mem.outWorkMem.nSize
    (r.1, m.setOutWork r.2)
  | outAddIds =>
    let r := host.outAddIds m.codec_mem.outWorkMem.contents 0 C.K
    (r.1, m.setOutWork r.2)
  | outCompile =>
    let r := host.outCompile m.codec_mem.outWorkMem.contents
      m.codec_mem.outProgMem.contents m.codec_mem.outProgMem.nSize
    (r.1, (m.setOutWork r.2.1).setOutProg r.2.2)
  | outExecute =>
    let r := host.outExecute m.codec_mem.outProgMem.contents C.T
      m.codec_mem.interSymMem.contents m.data_out.cell sz
    (r.1, m.setDataOut r.2)

/-- The result codes that end the branch. -/
def Fails (host : Host M) (rc : ℤ) : DecodeCall → Prop
  | interCompile => rc = host.errInsuffIds ∨ rc ≠ 0
  | _ => rc < 0

instance (host : Host M) (rc : ℤ) (call : DecodeCall) : Decidable (call.Fails host rc) := by
  cases call <;> unfold Fails <;> infer_instance

/-- The exit that a failing call takes. -/
def exit (host : Host M) (rc : ℤ) : DecodeCall → DataExit
  | interCompile => if rc = host.errInsuffIds then .insuffIds else .compileError
  | _ => .callFailed

end DecodeCall

/-- The calls in order: one `RqInterAddIds` for each symbol received. -/
def decodeCalls (C : Codeblockstate) : List DecodeCall :=
  [.includeCase, .interInit] ++ C.esis.map .interAddIds ++
    [.interCompile, .interExecute, .outInit, .outAddIds, .outCompile, .outExecute]

/-- The first call that fails, with the memory that it is given. -/
def firstFailure (host : Host M) (C : Codeblockstate) (sz : ℕ) :
    List DecodeCall → DataMem M → Option (DecodeCall × DataMem M)
  | [], _ => none
  | call :: calls, m =>
    let r := call.run host C sz m
    if call.Fails host r.1 then some (call, m) else firstFailure host C sz calls r.2

/-- Carry out the calls up to the first that fails. -/
def runCalls (host : Host M) (C : Codeblockstate) (sz : ℕ) :
    List DecodeCall → DataMem M → Except (DataExit × DataMem M) (DataMem M)
  | [], m => .ok m
  | call :: calls, m =>
    let r := call.run host C sz m
    if call.Fails host r.1 then .error (call.exit host r.1, r.2)
    else runCalls host C sz calls r.2

section
variable {host : Host M} {C : Codeblockstate} {sz : ℕ} {m : DataMem M}

theorem runCalls_cons (call : DecodeCall) (calls : List DecodeCall) :
    runCalls host C sz (call :: calls) m =
      if call.Fails host (call.run host C sz m).1 then
        .error (call.exit host (call.run host C sz m).1, (call.run host C sz m).2)
      else runCalls host C sz calls (call.run host C sz m).2 := rfl

/-- A call under `RUN_NOFAIL`. -/
theorem runCalls_nofail {call : DecodeCall} (hcall : call ≠ .interCompile)
    (calls : List DecodeCall) :
    runCalls host C sz (call :: calls) m =
      runNofail (call.run host C sz m).1 (call.run host C sz m).2 >>= fun m =>
        runCalls host C sz calls m := by
  have hfails : ∀ rc, call.Fails host rc ↔ rc < 0 := fun rc => by
    cases call <;> first | exact Iff.rfl | exact absurd rfl hcall
  have hexit : ∀ rc, call.exit host rc = .callFailed := fun rc => by
    cases call <;> first | rfl | exact absurd rfl hcall
  rw [runCalls_cons, hexit, runNofail]
  by_cases hneg : (call.run host C sz m).1 < 0
  · rw [if_pos ((hfails _).mpr hneg), if_pos hneg]
    rfl
  · rw [if_neg ((hfails _).not.mpr hneg), if_neg hneg]
    rfl

/-- The loop of `RqInterAddIds` calls. -/
theorem runCalls_interAddIds (ids : List ℤ) (calls : List DecodeCall) (m : DataMem M) :
    runCalls host C sz (ids.map .interAddIds ++ calls) m =
      runNofail (interAddEsis host m.codec_mem.interWorkMem.contents ids).1
          (m.setInterWork (interAddEsis host m.codec_mem.interWorkMem.contents ids).2) >>=
        fun m => runCalls host C sz calls m := by
  induction ids generalizing m with
  | nil => rfl
  | cons id ids ih =>
      rw [List.map_cons, List.cons_append, runCalls_nofail (by simp), interAddEsis]
      simp only [DecodeCall.run]
      by_cases hneg : (host.interAddIds m.codec_mem.interWorkMem.contents id 1).1 < 0
      · simp only [if_pos hneg, runNofail]
        rfl
      · simp only [if_neg hneg, runNofail, ok_bind, ih]
        rfl

/-- `RqInterCompile` may fail in two ways. -/
theorem runCalls_interCompile (calls : List DecodeCall) :
    runCalls host C sz (.interCompile :: calls) m =
      let r := DecodeCall.interCompile.run host C sz m
      if r.1 = host.errInsuffIds then .error (.insuffIds, r.2)
      else if r.1 ≠ 0 then .error (.compileError, r.2)
      else runCalls host C sz calls r.2 := by
  rw [runCalls_cons]
  simp only [DecodeCall.Fails, DecodeCall.exit]
  by_cases hins : (DecodeCall.interCompile.run host C sz m).1 = host.errInsuffIds
  · simp only [if_pos hins, if_pos (Or.inl hins)]
  · by_cases hne : (DecodeCall.interCompile.run host C sz m).1 ≠ 0
    · simp only [if_neg hins, if_pos hne, if_pos (Or.inr hne)]
    · simp only [if_neg hins, if_neg hne, if_neg (not_or_intro hins hne)]

theorem runCalls_interBlock (calls : List DecodeCall) :
    runCalls host C sz (.interInit :: (C.esis.map .interAddIds ++
        .interCompile :: .interExecute :: calls)) m =
      interBlock host C m >>= fun m => runCalls host C sz calls m := by
  rw [runCalls_nofail (by simp), interBlock, bind_assoc]
  congr 1
  funext m
  rw [runCalls_interAddIds, bind_assoc]
  congr 1
  funext m
  rw [runCalls_interCompile]
  by_cases hins : (DecodeCall.interCompile.run host C sz m).1 = host.errInsuffIds
  · simp only [if_pos hins]
    simp only [DecodeCall.run] at hins ⊢
    rw [if_pos hins]
    rfl
  · by_cases hne : (DecodeCall.interCompile.run host C sz m).1 ≠ 0
    · simp only [if_neg hins, if_pos hne]
      simp only [DecodeCall.run] at hins hne ⊢
      rw [if_neg hins, if_pos hne]
      rfl
    · simp only [if_neg hins, if_neg hne]
      simp only [DecodeCall.run] at hins hne
      rw [if_neg hins, if_neg hne]
      exact runCalls_nofail (by simp) calls

theorem runCalls_outBlock :
    runCalls host C sz [.outInit, .outAddIds, .outCompile, .outExecute] m =
      outBlock host C sz m := by
  rw [runCalls_nofail (by simp), outBlock]
  congr 1
  funext m
  rw [runCalls_nofail (by simp)]
  congr 1
  funext m
  rw [runCalls_nofail (by simp)]
  rfl

/-- The decoding branch carries out these calls. -/
theorem decodeBlock_eq_runCalls :
    decodeBlock host C sz m = runCalls host C sz (decodeCalls C) m := by
  have hcalls : decodeCalls C = DecodeCall.includeCase :: DecodeCall.interInit ::
      (C.esis.map DecodeCall.interAddIds ++ DecodeCall.interCompile :: DecodeCall.interExecute ::
        [.outInit, .outAddIds, .outCompile, .outExecute]) := by
    simp [decodeCalls]
  rw [hcalls, runCalls_nofail (by simp), decodeBlock]
  congr 1
  funext m
  rw [runCalls_interBlock]
  congr 1
  funext m
  exact runCalls_outBlock.symm

/-! ## The first failing call -/

theorem firstFailure_cons_eq_some {next call : DecodeCall} {calls : List DecodeCall}
    {before : DataMem M} :
    firstFailure host C sz (next :: calls) m = some (call, before) ↔
      (next = call ∧ m = before ∧ next.Fails host (next.run host C sz m).1) ∨
        (¬next.Fails host (next.run host C sz m).1 ∧
          firstFailure host C sz calls (next.run host C sz m).2 = some (call, before)) := by
  simp only [firstFailure]
  by_cases hfails : next.Fails host (next.run host C sz m).1
  · simp [hfails]
  · simp [hfails]

theorem runCalls_of_none {calls : List DecodeCall} (h : firstFailure host C sz calls m = none) :
    ∃ m', runCalls host C sz calls m = .ok m' := by
  induction calls generalizing m with
  | nil => exact ⟨m, rfl⟩
  | cons call calls ih =>
      simp only [firstFailure] at h
      split at h
      · cases h
      · rename_i hgo
        rw [runCalls_cons, if_neg hgo]
        exact ih h

theorem runCalls_of_some {calls : List DecodeCall} {call : DecodeCall} {before : DataMem M}
    (h : firstFailure host C sz calls m = some (call, before)) :
    runCalls host C sz calls m =
      .error (call.exit host (call.run host C sz before).1, (call.run host C sz before).2) := by
  induction calls generalizing m with
  | nil => cases h
  | cons next calls ih =>
      rw [runCalls_cons]
      rcases firstFailure_cons_eq_some.mp h with ⟨rfl, rfl, hstop⟩ | ⟨hgo, hrest⟩
      · rw [if_pos hstop]
      · rw [if_neg hgo]
        exact ih hrest

variable (host C sz m) in
/-- Only the last call writes to the source block. -/
theorem run_data_out {call : DecodeCall} (h : call ≠ .outExecute) :
    (call.run host C sz m).2.data_out = m.data_out := by
  cases call <;> first | rfl | exact absurd rfl h

theorem firstFailure_data_out {calls : List DecodeCall} (hnot : .outExecute ∉ calls)
    {call : DecodeCall} {before : DataMem M}
    (h : firstFailure host C sz (calls ++ [.outExecute]) m = some (call, before)) :
    before.data_out = m.data_out := by
  induction calls generalizing m with
  | nil =>
      rcases firstFailure_cons_eq_some.mp h with ⟨-, rfl, -⟩ | ⟨-, hrest⟩
      · rfl
      · cases hrest
  | cons next calls ih =>
      obtain ⟨hne, hnot⟩ := List.ne_and_not_mem_of_not_mem_cons hnot
      rcases firstFailure_cons_eq_some.mp h with ⟨-, rfl, -⟩ | ⟨-, hrest⟩
      · rfl
      · rw [ih hnot hrest, run_data_out host C sz m hne.symm]

/-- Until `RqOutExecute` the source block stays as it was cleared. -/
theorem decodeCalls_data_out {call : DecodeCall} {before : DataMem M}
    (h : firstFailure host C sz (decodeCalls C) m = some (call, before)) :
    before.data_out = m.data_out := by
  have hcalls : decodeCalls C = DecodeCall.includeCase :: DecodeCall.interInit ::
      (C.esis.map DecodeCall.interAddIds ++ [DecodeCall.interCompile, DecodeCall.interExecute,
        DecodeCall.outInit, DecodeCall.outAddIds, DecodeCall.outCompile]) ++
      [DecodeCall.outExecute] := by
    simp [decodeCalls]
  rw [hcalls] at h
  exact firstFailure_data_out (by simp) h

end

/-! ## What is left in the source block -/

/-- A source block with the source symbols received, and zeros for the others. -/
def HoldsReceived (C : Codeblockstate) (syms : List (ℤ × List UInt8)) (block : Buffer UInt8) :
    Prop :=
  ∀ i < C.K, block.slice (i * C.T) C.T = heldSymbol C.T C.esis syms i

/-- `codeblockstate_get_data` returns, and when it returns false, the source block holds what
was received. -/
def KeepsReceived (host : Host M) (C : Codeblockstate) (sz : ℕ) (m : DataMem M)
    (syms : List (ℤ × List UInt8)) : Prop :=
  ∃ exit m', codeblockstateGetData host C sz m = .ok (exit, m') ∧
    (exit.ret = false → HoldsReceived C syms m'.data_out)

/-- The source block with which the codec answers `RqOutExecute`. -/
def outExecuteAnswer (host : Host M) (C : Codeblockstate) (sz : ℕ) (m : DataMem M) :
    Buffer UInt8 :=
  { m.data_out with
    cell := (host.outExecute m.codec_mem.outProgMem.contents C.T
      m.codec_mem.interSymMem.contents m.data_out.cell sz).2 }

/-- Nothing is decoded, or no call fails, or the first that does is `RqInterCompile` with
`RQ_ERR_INSUFF_IDS`. After another failure the cleared block has to be right as it is, and
when `RqOutExecute` fails, the block that the codec answers with. -/
def HarmlessFailure (host : Host M) (C : Codeblockstate) (sz : ℕ) (m : DataMem M)
    (syms : List (ℤ × List UInt8)) : Prop :=
  (C.n_src_esi ≥ C.K ∨ C.n_esi < C.K) ∨
    match firstFailure host C sz (decodeCalls C)
        { m with data_out := clearedBlock C.K C.T m.data_out } with
    | none => True
    | some (call, before) =>
      (call = .interCompile ∧ (call.run host C sz before).1 = host.errInsuffIds) ∨
        (call ≠ .outExecute ∧ ∀ i < C.K, heldSymbol C.T C.esis syms i = List.replicate C.T 0) ∨
        (call = .outExecute ∧ HoldsReceived C syms (outExecuteAnswer host C sz before))

theorem DecodeCall.exit_eq_insuffIds_iff {host : Host M} {call : DecodeCall} {rc : ℤ} :
    call.exit host rc = .insuffIds ↔ call = .interCompile ∧ rc = host.errInsuffIds := by
  cases call <;> simp [exit]

/-- A call that fails makes `codeblockstate_get_data` return false. -/
theorem DecodeCall.ret_exit (host : Host M) (call : DecodeCall) (rc : ℤ) :
    (call.exit host rc).ret = false := by
  cases call with
  | interCompile =>
      rw [exit]
      split <;> rfl
  | _ => rfl

namespace Codeblockstate.Holds

variable {host : Host M} {C : Codeblockstate} {K T : ℕ} {kept : List (ℤ × List UInt8)} {sz : ℕ}
  {m before : DataMem M} {call : DecodeCall}

/-- Most failures leave the function at once. -/
theorem getData_failed (h : C.Holds K T kept) (hsz : K * T ≤ sz) (hsize : K * T ≤ m.data_out.size)
    (hcopy : ¬(C.n_src_esi ≥ K ∨ kept.length < K))
    (hfirst : firstFailure host C sz (decodeCalls C)
      { m with data_out := clearedBlock K T m.data_out } = some (call, before))
    (hins : call.exit host (call.run host C sz before).1 ≠ .insuffIds) :
    codeblockstateGetData host C sz m =
      .ok (call.exit host (call.run host C sz before).1, (call.run host C sz before).2) := by
  rw [h.getData_eq hsz hsize]
  simp only [if_neg hcopy, decodeBlock_eq_runCalls, runCalls_of_some hfirst]

/-- `RQ_ERR_INSUFF_IDS` has the source symbols copied. -/
theorem getData_insuffIds (h : C.Holds K T kept) (hsz : K * T ≤ sz)
    (hsize : K * T ≤ m.data_out.size) (hcopy : ¬(C.n_src_esi ≥ K ∨ kept.length < K))
    (hfirst : firstFailure host C sz (decodeCalls C)
      { m with data_out := clearedBlock K T m.data_out } = some (call, before))
    (hins : call.exit host (call.run host C sz before).1 = .insuffIds) :
    ∃ m', codeblockstateGetData host C sz m = .ok (.insuffIds, m') ∧
      ∀ i < K, m'.data_out.slice (i * T) T = zeroFilled T kept i := by
  obtain ⟨rfl, -⟩ := DecodeCall.exit_eq_insuffIds_iff.mp hins
  obtain ⟨out', hcp, -, -, hslice⟩ :=
    h.copySourceSyms_ok (clearedBlock K T m.data_out) hsize fun i hi =>
      slice_clearedBlock m.data_out hi
  have hkeep : (DecodeCall.interCompile.run host C sz before).2.data_out =
      clearedBlock K T m.data_out :=
    (run_data_out host C sz before (by simp)).trans (decodeCalls_data_out hfirst)
  refine ⟨{ (DecodeCall.interCompile.run host C sz before).2 with data_out := out' }, ?_, hslice⟩
  rw [h.getData_eq hsz hsize]
  simp only [if_neg hcopy, decodeBlock_eq_runCalls, runCalls_of_some hfirst, hins, hkeep, hcp,
    ok_bind]

end Codeblockstate.Holds

/-- What was received survives a failure exactly when the failure is harmless. -/
theorem keepsReceived_iff (host : Host M) {K T : ℕ} {syms : List (ℤ × List UInt8)}
    (hsyms : ∀ s ∈ syms, SymFor T s) {C : Codeblockstate}
    (hadd : addSyms (codeblockstateInit host K T) syms = .ok C) {sz : ℕ} (hsz : K * T ≤ sz)
    {m : DataMem M} (hsize : K * T ≤ m.data_out.size) :
    KeepsReceived host C sz m syms ↔ HarmlessFailure host C sz m syms := by
  obtain ⟨C', hadd', h⟩ := addSyms_holds host K T syms hsyms
  obtain rfl : C' = C := Except.ok.inj (hadd'.symm.trans hadd)
  have hheld : ∀ i, zeroFilled T (retainAll (K + 30) syms) i = heldSymbol T C'.esis syms i :=
    fun i => by rw [zeroFilled_retainAll, h.esis_eq]
  unfold KeepsReceived HarmlessFailure HoldsReceived
  rw [h.K_eq, h.T_eq, h.n_esi_eq]
  by_cases hcopy : C'.n_src_esi ≥ K ∨ (retainAll (K + 30) syms).length < K
  · obtain ⟨out', hget, -, -, hslice⟩ := h.getData_copied host hsz hsize hcopy
    rw [exists_ok_iff hget]
    exact iff_of_true (fun _ i hi => (hslice i hi).trans (hheld i)) (.inl hcopy)
  rw [or_iff_right hcopy]
  cases hfirst : firstFailure host C' sz (decodeCalls C')
      { m with data_out := clearedBlock K T m.data_out } with
  | none =>
      obtain ⟨m', hrun⟩ := runCalls_of_none hfirst
      have hget : codeblockstateGetData host C' sz m = .ok (.decoded, m') := by
        rw [h.getData_eq hsz hsize]
        simp only [if_neg hcopy, decodeBlock_eq_runCalls, hrun]
      rw [exists_ok_iff hget]
      exact iff_of_true (fun hret => by cases hret) trivial
  | some r =>
      obtain ⟨call, before⟩ := r
      simp only
      by_cases hins : call.exit host (call.run host C' sz before).1 = .insuffIds
      · obtain ⟨m', hget, hslice⟩ := h.getData_insuffIds hsz hsize hcopy hfirst hins
        rw [exists_ok_iff hget]
        exact iff_of_true (fun _ i hi => (hslice i hi).trans (hheld i))
          (.inl (DecodeCall.exit_eq_insuffIds_iff.mp hins))
      · rw [exists_ok_iff (h.getData_failed hsz hsize hcopy hfirst hins),
          imp_iff_right (DecodeCall.ret_exit host call _),
          or_iff_right (DecodeCall.exit_eq_insuffIds_iff.not.mp hins)]
        by_cases hlast : call = .outExecute
        · subst hlast
          simp only [ne_eq, not_true_eq_false, false_and, true_and, false_or]
          exact Iff.rfl
        · have hclear := (run_data_out host C' sz before hlast).trans (decodeCalls_data_out hfirst)
          rw [or_iff_left fun hno => hlast hno.1, and_iff_right hlast, hclear]
          refine forall₂_congr fun i hi => ?_
          rw [slice_clearedBlock _ hi, eq_comm]

/-- The source block of two symbols of one byte, before it is cleared. -/
def twoBytes : DataMem Unit :=
  { codec_mem := .zero refusingHost, data_out := { size := 2, cell := fun _ => 1 } }

/-- The size functions fail, but the only source symbol received is zero. -/
theorem keepsReceived_iff_zero :
    ∃ C, addSyms (codeblockstateInit refusingHost 2 1) [(0, [0]), (2, [1])] = .ok C ∧
      KeepsReceived refusingHost C 2 twoBytes [(0, [0]), (2, [1])] := by
  obtain ⟨C, hC⟩ : ∃ C, addSyms (codeblockstateInit refusingHost 2 1) [(0, [0]), (2, [1])] =
      .ok C := ⟨_, rfl⟩
  refine ⟨C, hC, (keepsReceived_iff refusingHost (by decide) hC (by decide) (by decide)).mpr ?_⟩
  cases hC
  exact .inr (.inr (.inl ⟨by decide, by decide⟩))

/-- The size functions fail, and the source symbol received is lost. -/
theorem decode_failure_drops_symbol :
    ∃ C exit m', addSyms (codeblockstateInit refusingHost 2 1) [(0, [7]), (2, [1])] = .ok C ∧
      codeblockstateGetData refusingHost C 2 twoBytes = .ok (exit, m') ∧ exit.ret = false ∧
      heldSymbol 1 C.esis [(0, [7]), (2, [1])] 0 = [7] ∧ m'.data_out.slice 0 1 = [0] :=
  ⟨_, _, _, rfl, rfl, rfl, by decide, by decide⟩

end RqRoute
