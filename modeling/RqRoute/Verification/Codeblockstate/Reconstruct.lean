import RqRoute.Verification.Codeblockstate.Store

/-! # Reconstructing the source block

Which of its exits `codeblockstate_get_data` takes, and what the source block holds
there. No exit is an assertion or an access outside of a buffer. -/

namespace RqRoute

open Checked Memory Dedup

variable {M : Type}

/-- The source symbol `i` of a store: its first payload, or zeros. -/
def zeroFilled (T : ℕ) (kept : List (ℤ × List UInt8)) (i : ℕ) : List UInt8 :=
  match kept.find? fun p => p.1 = (i : ℤ) with
  | some p => padSym T p.2
  | none => List.replicate T 0

/-- The ids of the source symbols. -/
def sourceIds (K : ℕ) : List ℤ := (List.range K).map Nat.cast

theorem mem_sourceIds {K : ℕ} {id : ℤ} : id ∈ sourceIds K ↔ 0 ≤ id ∧ id < K := by
  simp only [sourceIds, List.mem_map, List.mem_range]
  constructor
  · rintro ⟨i, hi, rfl⟩
    omega
  · intro h
    exact ⟨id.toNat, by omega, by omega⟩

theorem nodup_sourceIds (K : ℕ) : (sourceIds K).Nodup :=
  List.Nodup.map (fun _ _ h => Int.ofNat_inj.mp h) List.nodup_range

@[simp] theorem length_sourceIds (K : ℕ) : (sourceIds K).length = K := by
  simp [sourceIds]

/-- All source symbols are in the store. -/
def AllSource (K : ℕ) (kept : List (ℤ × List UInt8)) : Prop :=
  ∀ i < K, ∃ p ∈ kept, p.1 = (i : ℤ)

namespace Codeblockstate.Holds

variable {C : Codeblockstate} {K T : ℕ} {kept : List (ℤ × List UInt8)}

/-! ## Counting the source symbols -/

/-- The stored source ids are distinct numbers below `K`, so they are all of them when
there are `K`. -/
theorem allSource_iff (h : C.Holds K T kept) : AllSource K kept ↔ K ≤ C.n_src_esi := by
  have hcount : ((kept.map Prod.fst).filter fun id => id < (K : ℤ)).length = C.n_src_esi := by
    rw [h.n_src_eq, List.filter_map, List.length_map, ← List.countP_eq_length_filter]
    rfl
  have hnodup : ((kept.map Prod.fst).filter fun id => id < (K : ℤ)).Nodup := h.nodup.filter _
  constructor
  · intro hall
    have hsub : sourceIds K ⊆ (kept.map Prod.fst).filter fun id => id < (K : ℤ) := by
      intro id hid
      obtain ⟨hnonneg, hlt⟩ := mem_sourceIds.mp hid
      obtain ⟨p, hp, hpi⟩ := hall id.toNat (by omega)
      refine List.mem_filter.mpr ⟨List.mem_map.mpr ⟨p, hp, by omega⟩, by simpa using hlt⟩
    have hlen := ((nodup_sourceIds K).subperm hsub).length_le
    rwa [length_sourceIds, hcount] at hlen
  · intro hK
    have hsub : ((kept.map Prod.fst).filter fun id => id < (K : ℤ)) ⊆ sourceIds K := by
      intro id hid
      obtain ⟨hmem, hlt⟩ := List.mem_filter.mp hid
      obtain ⟨p, hp, rfl⟩ := List.mem_map.mp hmem
      exact mem_sourceIds.mpr ⟨(h.ids p hp).1, by simpa using hlt⟩
    have hperm := (hnodup.subperm hsub).perm_of_length_le (by rwa [length_sourceIds, hcount])
    intro i hi
    have hmem := hperm.mem_iff.mpr (mem_sourceIds.mpr ⟨Int.natCast_nonneg i, by omega⟩)
    obtain ⟨p, hp, hpi⟩ := List.mem_map.mp (List.mem_filter.mp hmem).1
    exact ⟨p, hp, hpi⟩

/-! ## Copying the source symbols -/

theorem esi_cell (h : C.Holds K T kept) {n : ℕ} (hn : n < kept.length) :
    C.esi.cell n = kept[n].1 := by
  have hlen : n < C.esis.length := by simpa [h.esis_eq] using hn
  have hget : C.esis[n] = kept[n].1 := by simp [h.esis_eq]
  rw [← hget]
  unfold Codeblockstate.esis at hlen ⊢
  rw [Buffer.getElem_slice, Nat.zero_add]

/-- The copying loop after `n` rounds: the source block holds the source symbols among
the first `n` stored ones, and what it held before elsewhere. -/
theorem copySourceSyms_take (h : C.Holds K T kept) {out : Buffer UInt8}
    (hout : K * T ≤ out.size) (n : ℕ) (hn : n ≤ kept.length) :
    ∃ out', (List.range n).foldlM (copySourceSym C) out = .ok out' ∧ out'.size = out.size ∧
      (∀ i, K * T ≤ i → out'.cell i = out.cell i) ∧
      ∀ i < K, out'.slice (i * T) T =
        match (kept.take n).find? fun p => p.1 = (i : ℤ) with
        | some p => padSym T p.2
        | none => out.slice (i * T) T := by
  induction n with
  | zero => exact ⟨out, rfl, rfl, fun _ _ => rfl, by simp⟩
  | succ n ih =>
      obtain ⟨mid, hfold, hsize, htail, hsyms⟩ := ih (by omega)
      have hlt : n < kept.length := by omega
      have htake : kept.take (n + 1) = kept.take n ++ [kept[n]] :=
        (List.take_append_getElem hlt).symm
      have hload : C.esi.load? n = some kept[n].1 := by
        rw [Buffer.load?_of_lt (by have := h.esi_size; have := h.kept_le; omega), h.esi_cell hlt]
      rw [List.range_succ, List.foldlM_append, hfold]
      simp only [ok_bind, List.foldlM_cons, List.foldlM_nil, pure_eq_ok, bind_ok]
      rw [copySourceSym, hload, orElse_some, ok_bind, h.K_eq]
      by_cases hsrc : kept[n].1 ≥ K
      · -- a repair symbol leaves the source block as it is
        rw [if_pos hsrc]
        refine ⟨mid, rfl, hsize, htail, fun i hi => ?_⟩
        have hne : ¬kept[n].1 = (i : ℤ) := by omega
        rw [hsyms i hi, htake, List.find?_append]
        simp [hne]
      · have hnonneg := (h.ids _ (List.getElem_mem hlt)).1
        obtain ⟨k, hk⟩ := Int.eq_ofNat_of_zero_le hnonneg
        have hkK : k < K := by omega
        have hsym : C.syms_buf.read? (n * C.T) C.T = some (padSym T kept[n].2) := by
          have hfit : T * n + T ≤ T * (K + 30) := slot_le T (by have := h.kept_le; omega)
          rw [h.T_eq, Nat.mul_comm n T, Buffer.read?_of_le (by rw [h.syms_size]; exact hfit),
            h.syms n hlt]
        have hpad := length_padSym (h.payloads _ (List.getElem_mem hlt))
        have hroom : k * T + T ≤ K * T := by
          have := slot_le T hkK
          rwa [Nat.mul_comm T k, Nat.mul_comm T K] at this
        rw [if_neg hsrc, check_bind hnonneg, hsym, orElse_some, ok_bind, h.T_eq, hk,
          Int.toNat_natCast, Buffer.write?_of_le (by rw [hpad]; omega), orElse_some]
        refine ⟨_, rfl, hsize, fun i hi => ?_, fun i hi => ?_⟩
        · rw [Buffer.cell_blit_of_ge _ (by rw [hpad]; omega), htail i hi]
        · rw [htake, List.find?_append]
          by_cases hik : i = k
          · subst i
            have hnew : (kept.take n).find? (fun p => p.1 = (k : ℤ)) = none := by
              rw [List.find?_eq_none]
              intro p hp heq
              have hpair := h.nodup
              rw [← List.take_append_drop n kept, List.map_append, List.nodup_append] at hpair
              refine hpair.2.2 p.1 (List.mem_map.mpr ⟨p, hp, rfl⟩) kept[n].1 ?_ ?_
              · rw [List.drop_eq_getElem_cons hlt]
                exact List.mem_map.mpr ⟨kept[n], List.mem_cons_self, rfl⟩
              · simpa [hk] using heq
            have hself := mid.slice_blit_self (k * T) (padSym T kept[n].2)
            rw [hpad] at hself
            rw [hself, hnew]
            simp [hk]
          · have hdisj : i * T + T ≤ k * T ∨ k * T + (padSym T kept[n].2).length ≤ i * T := by
              rw [hpad]
              rcases Nat.lt_or_gt_of_ne hik with hlt' | hgt
              · have := slot_le T hlt'
                exact .inl (by rwa [Nat.mul_comm T i, Nat.mul_comm T k] at this)
              · have := slot_le T hgt
                exact .inr (by rwa [Nat.mul_comm T i, Nat.mul_comm T k] at this)
            have hne : ¬kept[n].1 = (i : ℤ) := by omega
            rw [Buffer.slice_blit_of_disjoint _ hdisj, hsyms i hi]
            simp [hne]

/-- The copying loop on a cleared source block. -/
theorem copySourceSyms_ok (h : C.Holds K T kept) (out : Buffer UInt8) (hout : K * T ≤ out.size)
    (hzero : ∀ i < K, out.slice (i * T) T = List.replicate T 0) :
    ∃ out', copySourceSyms C out = .ok out' ∧ out'.size = out.size ∧
      (∀ i, K * T ≤ i → out'.cell i = out.cell i) ∧
      ∀ i < K, out'.slice (i * T) T = zeroFilled T kept i := by
  obtain ⟨out', hfold, hsize, htail, hsyms⟩ := h.copySourceSyms_take hout kept.length le_rfl
  refine ⟨out', by rw [copySourceSyms, h.n_esi_eq]; exact hfold, hsize, htail, fun i hi => ?_⟩
  rw [hsyms i hi, hzero i hi, List.take_length]
  rfl

end Codeblockstate.Holds

/-! ## The decoding branch -/

@[simp] theorem runNofail_eq_ok {rc : ℤ} {m m' : DataMem M} :
    runNofail rc m = .ok m' ↔ 0 ≤ rc ∧ m = m' := by
  unfold runNofail
  split <;> simp <;> omega

@[simp] theorem runNofail_eq_error {rc : ℤ} {m : DataMem M} {e : DataExit × DataMem M} :
    runNofail rc m = .error e ↔ rc < 0 ∧ (.callFailed, m) = e := by
  unfold runNofail
  split <;> simp <;> omega

/-- The exits that leave the decoding branch early. -/
def DataExit.Early (e : DataExit) : Prop := e = .callFailed ∨ e = .insuffIds ∨ e = .compileError

/-- Generating the intermediate block leaves the source block alone. -/
theorem interBlock_data_out {host : Host M} {C : Codeblockstate} {m : DataMem M} :
    (∀ m', interBlock host C m = .ok m' → m'.data_out = m.data_out) ∧
      ∀ e m', interBlock host C m = .error (e, m') → e.Early ∧ m'.data_out = m.data_out := by
  constructor
  · intro m' h
    simp only [interBlock, bind_eq_ok, runNofail_eq_ok] at h
    obtain ⟨m₁, ⟨-, rfl⟩, m₂, ⟨-, rfl⟩, h⟩ := h
    split at h
    · cases h
    · split at h
      · cases h
      · obtain ⟨-, rfl⟩ := runNofail_eq_ok.mp h
        simp
  · intro e m' h
    simp only [interBlock, bind_eq_error, runNofail_eq_ok, runNofail_eq_error] at h
    rcases h with ⟨-, h⟩ | ⟨m₁, ⟨-, rfl⟩, ⟨-, h⟩ | ⟨m₂, ⟨-, rfl⟩, h⟩⟩
    · cases h
      exact ⟨.inl rfl, rfl⟩
    · cases h
      exact ⟨.inl rfl, rfl⟩
    · split at h
      · cases h
        exact ⟨.inr (.inl rfl), by simp⟩
      · split at h
        · cases h
          exact ⟨.inr (.inr rfl), by simp⟩
        · obtain ⟨-, h⟩ := runNofail_eq_error.mp h
          cases h
          exact ⟨.inl rfl, by simp⟩

/-- Reconstructing the source block writes inside of it, and fails in one way only. -/
theorem outBlock_data_out {host : Host M} {C : Codeblockstate} {sz : ℕ} {m : DataMem M} :
    (∀ m', outBlock host C sz m = .ok m' → m'.data_out.size = m.data_out.size) ∧
      ∀ e m', outBlock host C sz m = .error (e, m') →
        e = .callFailed ∧ m'.data_out.size = m.data_out.size := by
  constructor
  · intro m' h
    simp only [outBlock, bind_eq_ok, runNofail_eq_ok] at h
    obtain ⟨m₁, ⟨-, rfl⟩, m₂, ⟨-, rfl⟩, m₃, ⟨-, rfl⟩, -, rfl⟩ := h
    rfl
  · intro e m' h
    simp only [outBlock, bind_eq_error, runNofail_eq_ok, runNofail_eq_error] at h
    rcases h with ⟨-, h⟩ | ⟨m₁, ⟨-, rfl⟩, ⟨-, h⟩ | ⟨m₂, ⟨-, rfl⟩, ⟨-, h⟩ | ⟨m₃, ⟨-, rfl⟩, -, h⟩⟩⟩
    all_goals
      cases h
      exact ⟨rfl, rfl⟩

theorem decodeBlock_data_out {host : Host M} {C : Codeblockstate} {sz : ℕ} {m : DataMem M} :
    (∀ m', decodeBlock host C sz m = .ok m' → m'.data_out.size = m.data_out.size) ∧
      ∀ e m', decodeBlock host C sz m = .error (e, m') →
        e.Early ∧ m'.data_out.size = m.data_out.size ∧
          (e = .insuffIds → m'.data_out = m.data_out) := by
  constructor
  · intro m' h
    simp only [decodeBlock, bind_eq_ok, runNofail_eq_ok] at h
    obtain ⟨m₁, ⟨-, rfl⟩, m₂, hinter, hout⟩ := h
    rw [outBlock_data_out.1 m' hout, interBlock_data_out.1 m₂ hinter]
  · intro e m' h
    simp only [decodeBlock, bind_eq_error, runNofail_eq_ok, runNofail_eq_error] at h
    rcases h with ⟨-, h⟩ | ⟨m₁, ⟨-, rfl⟩, hinter | ⟨m₂, hinter, hout⟩⟩
    · cases h
      exact ⟨.inl rfl, rfl, fun _ => rfl⟩
    · obtain ⟨he, hm⟩ := interBlock_data_out.2 e m' hinter
      exact ⟨he, by rw [hm], fun _ => hm⟩
    · obtain ⟨rfl, hm⟩ := outBlock_data_out.2 e m' hout
      rw [interBlock_data_out.1 m₂ hinter] at hm
      exact ⟨.inl rfl, hm, fun h => by cases h⟩

/-! ## The exits -/

/-- The source block after `memset`. -/
def clearedBlock (K T : ℕ) (out : Buffer UInt8) : Buffer UInt8 :=
  out.blit 0 (List.replicate (K * T) 0)

theorem slice_clearedBlock {K T : ℕ} (out : Buffer UInt8) {i : ℕ} (hi : i < K) :
    (clearedBlock K T out).slice (i * T) T = List.replicate T 0 := by
  apply List.ext_getElem (by simp)
  intro j hj _
  have hjT : j < T := by simpa using hj
  have hroom := Codeblockstate.Holds.slot_le T hi
  rw [Nat.mul_comm T i, Nat.mul_comm T K] at hroom
  have hlt : i * T + j < (List.replicate (K * T) (0 : UInt8)).length := by
    rw [List.length_replicate]
    omega
  have hcell := out.cell_blit_of_mem 0 hlt
  rw [Nat.zero_add] at hcell
  rw [Buffer.getElem_slice, clearedBlock, hcell]
  simp

namespace Codeblockstate.Holds

variable {C : Codeblockstate} {K T : ℕ} {kept : List (ℤ × List UInt8)} {host : Host M} {sz : ℕ}
  {m m₁ : DataMem M} {exit : DataExit}

theorem getData_eq (h : C.Holds K T kept) (hsz : K * T ≤ sz) (hsize : K * T ≤ m.data_out.size) :
    codeblockstateGetData host C sz m =
      let m := { m with data_out := clearedBlock K T m.data_out }
      if C.n_src_esi ≥ K ∨ kept.length < K then
        copySourceSyms C m.data_out >>= fun data_out =>
          .ok (if C.n_src_esi ≥ K then .allSource else .tooFew, { m with data_out })
      else
        match decodeBlock host C sz m with
        | .ok m => .ok (.decoded, m)
        | .error (.insuffIds, m) =>
          copySourceSyms C m.data_out >>= fun data_out => .ok (.insuffIds, { m with data_out })
        | .error (exit, m) => .ok (exit, m) := by
  have hclear : m.data_out.write? 0 (List.replicate (C.K * C.T) 0) =
      some (clearedBlock K T m.data_out) := by
    rw [h.K_eq, h.T_eq, Buffer.write?_of_le (by simpa using hsize)]
    rfl
  rw [codeblockstateGetData, check_bind (by rw [h.K_eq, h.T_eq]; exact hsz), hclear, orElse_some,
    ok_bind]
  simp only [h.K_eq, h.n_esi_eq]
  rfl

variable (host) in
/-- Without decoding: the source symbols are copied. -/
theorem getData_copied (h : C.Holds K T kept) (hsz : K * T ≤ sz) (hsize : K * T ≤ m.data_out.size)
    (hcopy : C.n_src_esi ≥ K ∨ kept.length < K) :
    ∃ out', codeblockstateGetData host C sz m =
        .ok (if C.n_src_esi ≥ K then .allSource else .tooFew, { m with data_out := out' }) ∧
      out'.size = m.data_out.size ∧ (∀ i, K * T ≤ i → out'.cell i = m.data_out.cell i) ∧
      ∀ i < K, out'.slice (i * T) T = zeroFilled T kept i := by
  obtain ⟨out', hcp, hout', htail, hsyms⟩ :=
    h.copySourceSyms_ok (clearedBlock K T m.data_out) hsize fun i hi =>
      slice_clearedBlock m.data_out hi
  refine ⟨out', ?_, hout', fun i hi => ?_, hsyms⟩
  · rw [h.getData_eq hsz hsize]
    simp only [if_pos hcopy, hcp, ok_bind]
  · rw [htail i hi, clearedBlock, Buffer.cell_blit_of_ge]
    simpa using hi

/-- With decoding. -/
theorem getData_decoded (h : C.Holds K T kept) (hsz : K * T ≤ sz) (hsize : K * T ≤ m.data_out.size)
    (hcopy : ¬(C.n_src_esi ≥ K ∨ kept.length < K))
    (hget : codeblockstateGetData host C sz m = .ok (exit, m₁)) :
    (exit = .decoded ∧
      decodeBlock host C sz { m with data_out := clearedBlock K T m.data_out } = .ok m₁) ∨
    ∃ m₂, decodeBlock host C sz { m with data_out := clearedBlock K T m.data_out } =
      .error (exit, m₂) ∧ (exit ≠ .insuffIds → m₁ = m₂) := by
  rw [h.getData_eq hsz hsize] at hget
  simp only [if_neg hcopy] at hget
  split at hget
  · rename_i hdec
    cases hget
    exact .inl ⟨rfl, hdec⟩
  · rename_i hdec
    obtain ⟨data_out, -, hget⟩ := bind_eq_ok.mp hget
    cases hget
    exact .inr ⟨_, hdec, fun hne => absurd rfl hne⟩
  · rename_i hdec
    cases hget
    exact .inr ⟨_, hdec, fun _ => rfl⟩

end Codeblockstate.Holds

/-- What `codeblockstate_get_data` leaves behind at each of its exits. -/
structure DataSpec (host : Host M) (C : Codeblockstate) (K T : ℕ)
    (kept : List (ℤ × List UInt8)) (sz : ℕ) (m : DataMem M) (exit : DataExit)
    (m' : DataMem M) : Prop where
  size_eq : m'.data_out.size = m.data_out.size
  all_iff : exit = .allSource ↔ AllSource K kept
  few_iff : exit = .tooFew ↔ kept.length < K
  copied : exit = .allSource ∨ exit = .tooFew ∨ exit = .insuffIds →
    ∀ i < K, m'.data_out.slice (i * T) T = zeroFilled T kept i
  decoded : exit = .decoded →
    decodeBlock host C sz { m with data_out := clearedBlock K T m.data_out } = .ok m'

/-- `codeblockstate_get_data` always returns. -/
theorem Codeblockstate.Holds.getData {C : Codeblockstate} {K T : ℕ}
    {kept : List (ℤ × List UInt8)} (h : C.Holds K T kept) (host : Host M) {sz : ℕ}
    (hsz : K * T ≤ sz) {m : DataMem M} (hout : K * T ≤ m.data_out.size) :
    ∃ exit m', codeblockstateGetData host C sz m = .ok (exit, m') ∧
      DataSpec host C K T kept sz m exit m' := by
  have hall := h.allSource_iff
  have hcount : kept.countP (fun p => p.1 < (K : ℤ)) ≤ kept.length := List.countP_le_length
  rw [← h.n_src_eq] at hcount
  by_cases hcopy : C.n_src_esi ≥ K ∨ kept.length < K
  · obtain ⟨out', hget, hsize, -, hsyms⟩ := h.getData_copied host hsz hout hcopy
    refine ⟨_, _, hget, hsize, ?_, ?_, fun _ => hsyms, ?_⟩
    · rw [hall]
      split <;> simp_all
    · split <;> simp <;> omega
    · split <;> simp
  · rw [h.getData_eq hsz hout]
    simp only [if_neg hcopy]
    push Not at hcopy
    have hnall : ¬AllSource K kept := by
      rw [hall]
      omega
    have hnfew : ¬kept.length < K := by omega
    cases hdec : decodeBlock host C sz { m with data_out := clearedBlock K T m.data_out } with
    | ok m' =>
        have hsize := decodeBlock_data_out.1 m' hdec
        exact ⟨.decoded, m', rfl, hsize, by simpa using hnall, by simpa using hnfew,
          by simp, fun _ => hdec⟩
    | error r =>
        obtain ⟨e, m'⟩ := r
        obtain ⟨hearly, hsize, hkeep⟩ := decodeBlock_data_out.2 e m' hdec
        rcases hearly with rfl | rfl | rfl
        · exact ⟨.callFailed, m', rfl, hsize, by simpa using hnall, by simpa using hnfew,
            by simp, by simp⟩
        · obtain ⟨out', hcp, hsize', -, hsyms⟩ :=
            h.copySourceSyms_ok (clearedBlock K T m.data_out) hout fun i hi =>
              slice_clearedBlock m.data_out hi
          simp only [hkeep rfl, hcp, ok_bind]
          exact ⟨.insuffIds, _, rfl, hsize', by simpa using hnall, by simpa using hnfew,
            fun _ => hsyms, by simp⟩
        · exact ⟨.compileError, m', rfl, hsize, by simpa using hnall, by simpa using hnfew,
            by simp, by simp⟩

end RqRoute
