import RqRoute.Library.Chunks
import RqRoute.Library.Dedup
import RqRoute.Library.Probing
import RqRoute.Model.Codeblockstate

/-! # The symbol store of a code block

`codeblockstate_add_sym` refines the store of `Dedup` with room for `K + 30` symbols:
the arrays hold the kept symbols in order of arrival, and the hash table their ids. -/

namespace RqRoute

open Checked Memory Probing Dedup

/-- A payload as it lies in its slot, filled up with zeros. -/
def padSym (T : ℕ) (payload : List UInt8) : List UInt8 := Chunks.fill T 0 payload

theorem length_padSym {T : ℕ} {payload : List UInt8} (h : payload.length ≤ T) :
    (padSym T payload).length = T := Chunks.length_fill 0 h

/-- An id whose hash is computed without overflow and lies in the table. -/
def HashableId (id : ℤ) : Prop := 0 ≤ id ∧ FitsInt (id * hMult)

/-- The slot where the search for an id starts. -/
def homeSlot (sz : ℕ) (id : ℤ) : ℕ := ((id * hMult).tmod sz).toNat

/-- The code block of `K` symbols of `T` bytes holds exactly the kept symbols. -/
structure Codeblockstate.Holds (C : Codeblockstate) (K T : ℕ) (kept : List (ℤ × List UInt8)) :
    Prop where
  K_eq : C.K = K
  T_eq : C.T = T
  max_eq : C.n_esi_max = K + 30
  n_esi_eq : C.n_esi = kept.length
  kept_le : kept.length ≤ K + 30
  nodup : (kept.map Prod.fst).Nodup
  ids : ∀ p ∈ kept, HashableId p.1
  payloads : ∀ p ∈ kept, p.2.length ≤ T
  esi_size : C.esi.size = K + 30
  esis_eq : C.esis = kept.map Prod.fst
  n_src_eq : C.n_src_esi = kept.countP fun p => p.1 < (K : ℤ)
  sz_eq : C.hash_esi_sz = hashEsiSize (K + 30)
  hash_size : C.hash_esi.size = C.hash_esi_sz
  placed : WellPlaced C.hash_esi.cell (-1) C.hash_esi_sz (homeSlot C.hash_esi_sz)
    (kept.map Prod.fst)
  syms_size : C.syms_buf.size = T * (K + 30)
  syms : ∀ i (h : i < kept.length), C.syms_buf.slice (T * i) T = padSym T kept[i].2

theorem holds_codeblockstateInit {M : Type} (host : Host M) (K T : ℕ) :
    (codeblockstateInit host K T).Holds K T [] where
  K_eq := rfl
  T_eq := rfl
  max_eq := rfl
  n_esi_eq := rfl
  kept_le := by simp
  nodup := by simp
  ids := by simp
  payloads := by simp
  esi_size := rfl
  esis_eq := rfl
  n_src_eq := rfl
  sz_eq := rfl
  hash_size := rfl
  placed := wellPlaced_empty _ _ _
  syms_size := rfl
  syms := by simp

/-! ## The hash table -/

/-- The table always has more slots than the store has room for. -/
theorem lt_hashEsiSize {n : ℕ} (h : 0 < n) : n < hashEsiSize n := by
  have hhalf : n < n * 5 / 2 := by omega
  simp only [hashEsiSize]
  split <;> omega

theorem homeSlot_lt {sz : ℕ} (hsz : 0 < sz) (id : ℤ) : homeSlot sz id < sz := by
  have hlt := Int.tmod_lt_of_pos (id * hMult) (by omega : (0 : ℤ) < sz)
  unfold homeSlot
  omega

theorem hashHome_eq (C : Codeblockstate) {id : ℤ} (h : HashableId id) :
    hashHome C id = .ok (homeSlot C.hash_esi_sz id) := by
  have hnonneg : 0 ≤ (id * hMult).tmod C.hash_esi_sz :=
    Int.tmod_nonneg _ (Int.mul_nonneg h.1 (by decide))
  rw [hashHome, check_bind h.2, check_bind hnonneg]
  rfl

/-- The probing loop stops where the walk through the table does. -/
theorem probeHash_of_probe {C : Codeblockstate} {id : ℤ}
    (hsize : C.hash_esi.size = C.hash_esi_sz) {fuel i j : ℕ} (hi : i < C.hash_esi_sz)
    (h : probe C.hash_esi.cell (-1) id C.hash_esi_sz fuel i = some j) :
    probeHash C id fuel i = .ok (if C.hash_esi.cell j = -1 then some j else none) := by
  induction fuel generalizing i with
  | zero => cases h
  | succ fuel ih =>
      rw [probeHash, Buffer.load?_of_lt (by omega), orElse_some, ok_bind]
      rw [probe] at h
      split at h
      · rename_i hstop
        obtain rfl := Option.some.inj h
        rcases hstop with hfree | hkey
        · simp [hfree]
        · by_cases hfree : C.hash_esi.cell i = -1
          · simp [hfree]
          · rw [if_neg hfree, if_pos hkey, if_neg hfree]
            rfl
      · rename_i hgo
        push Not at hgo
        rw [if_neg hgo.1, if_neg hgo.2]
        refine ih ?_ h
        split <;> omega

namespace Codeblockstate.Holds

variable {C : Codeblockstate} {K T : ℕ} {kept : List (ℤ × List UInt8)}

theorem hash_pos (h : C.Holds K T kept) : kept.length < C.hash_esi_sz := by
  have hlt := lt_hashEsiSize (n := K + 30) (by omega)
  have hle := h.kept_le
  rw [h.sz_eq]
  omega

/-- The probe for an id ends inside the table, and tells whether the id is stored. -/
theorem probeHash_spec (h : C.Holds K T kept) {id : ℤ} (hid : HashableId id) :
    ∃ i < C.hash_esi_sz,
      Reaches C.hash_esi.cell (-1) C.hash_esi_sz (homeSlot C.hash_esi_sz id) i ∧
      (id ∉ kept.map Prod.fst → C.hash_esi.cell i = -1) ∧
      probeHash C id C.hash_esi_sz (homeSlot C.hash_esi_sz id) =
        .ok (if id ∈ kept.map Prod.fst then none else some i) := by
  have hload := h.hash_pos
  have hhome := homeSlot_lt (by omega : 0 < C.hash_esi_sz) id
  have hne : id ≠ -1 := by
    have := hid.1
    omega
  obtain ⟨i, hi, hprobe, hreach, hold, hnew⟩ :=
    h.placed.probe_spec (k := id) (by simpa using hload) hne hhome
  refine ⟨i, hi, hreach, hnew, ?_⟩
  rw [probeHash_of_probe h.hash_size hhome hprobe]
  by_cases hmem : id ∈ kept.map Prod.fst
  · rw [if_pos hmem, hold hmem, if_neg hne]
  · rw [if_neg hmem, hnew hmem, if_pos rfl]

end Codeblockstate.Holds

/-! ## Storing a new symbol -/

theorem storeSym_eq {C : Codeblockstate} {hent : ℕ} {id : ℤ} {payload : List UInt8}
    (hhash : hent < C.hash_esi.size) (hesi : C.n_esi < C.esi.size)
    (hsyms : C.T * C.n_esi + C.T ≤ C.syms_buf.size) (hlen : payload.length ≤ C.T) :
    storeSym C hent id payload = .ok { C with
      hash_esi := C.hash_esi.blit hent [id]
      esi := C.esi.blit C.n_esi [id]
      syms_buf := C.syms_buf.blit (C.T * C.n_esi) (padSym C.T payload)
      n_esi := C.n_esi + 1
      n_src_esi := if id < C.K then C.n_src_esi + 1 else C.n_src_esi } := by
  rw [storeSym, Buffer.store?_of_lt hhash, Buffer.store?_of_lt hesi]
  simp only [orElse_some, ok_bind]
  rw [Buffer.write?_of_le (by omega), orElse_some, ok_bind, Buffer.write?_of_le, orElse_some,
    ok_bind, Buffer.blit_blit]
  · rfl
  · simp only [List.length_replicate, Buffer.size_blit]
    omega

namespace Codeblockstate.Holds

variable {C : Codeblockstate} {K T : ℕ} {kept : List (ℤ × List UInt8)}

/-- The slots of a buffer do not overlap. -/
theorem slot_le {i n : ℕ} (T : ℕ) (h : i < n) : T * i + T ≤ T * n := by
  calc
    T * i + T = T * (i + 1) := (Nat.mul_succ T i).symm
    _ ≤ T * n := Nat.mul_le_mul_left T h

theorem storeSym_ok (h : C.Holds K T kept) {id : ℤ} {payload : List UInt8}
    (hid : HashableId id) (hlen : payload.length ≤ T) (hroom : kept.length < K + 30)
    (hnew : id ∉ kept.map Prod.fst) {i : ℕ} (hi : i < C.hash_esi_sz)
    (hfree : C.hash_esi.cell i = -1)
    (hreach : Reaches C.hash_esi.cell (-1) C.hash_esi_sz (homeSlot C.hash_esi_sz id) i) :
    ∃ C', storeSym C i id payload = .ok C' ∧ C'.Holds K T (kept ++ [(id, payload)]) := by
  have hslot : T * kept.length + T ≤ T * (K + 30) := slot_le T hroom
  refine ⟨_, storeSym_eq (by rw [h.hash_size]; exact hi)
    (by rw [h.n_esi_eq, h.esi_size]; exact hroom)
    (by rw [h.T_eq, h.n_esi_eq, h.syms_size]; exact hslot) (by rw [h.T_eq]; exact hlen), ?_⟩
  have hne : id ≠ -1 := by
    have := hid.1
    omega
  refine ⟨h.K_eq, h.T_eq, h.max_eq, ?_, ?_, ?_, ?_, ?_, h.esi_size, ?_, ?_, h.sz_eq, h.hash_size,
    ?_, h.syms_size, ?_⟩
  · simp [h.n_esi_eq]
  · simp only [List.length_append, List.length_singleton]
    omega
  · rw [List.map_append, List.map_singleton]
    refine List.nodup_append.mpr ⟨h.nodup, by simp, ?_⟩
    rintro a ha b hb rfl
    rw [List.mem_singleton] at hb
    rw [hb] at ha
    exact hnew ha
  · intro p hp
    rcases List.mem_append.mp hp with hp | hp
    · exact h.ids p hp
    · rw [List.mem_singleton.mp hp]
      exact hid
  · intro p hp
    rcases List.mem_append.mp hp with hp | hp
    · exact h.payloads p hp
    · rw [List.mem_singleton.mp hp]
      exact hlen
  · have hold := h.esis_eq
    unfold Codeblockstate.esis at hold ⊢
    simp only
    rw [Buffer.slice_append, Buffer.slice_blit_of_disjoint _ (.inl (by omega)), hold, Nat.zero_add]
    have hself := C.esi.slice_blit_self C.n_esi [id]
    rw [List.length_singleton] at hself
    rw [hself, List.map_append, List.map_singleton]
  · simp only [h.n_src_eq, h.K_eq, List.countP_append, List.countP_singleton, decide_eq_true_eq]
    split <;> rfl
  · rw [Buffer.cell_blit_singleton_eq_update, List.map_append, List.map_singleton]
    exact h.placed.insert hne hnew hi hfree hreach
  · intro j hj
    have hpad := length_padSym hlen
    simp only [h.T_eq, h.n_esi_eq]
    rcases Nat.lt_or_ge j kept.length with hlt | hge
    · rw [Buffer.slice_blit_of_disjoint _ (.inl (slot_le T hlt)), h.syms j hlt,
        List.getElem_append_left hlt]
    · obtain rfl : j = kept.length := by
        simp only [List.length_append, List.length_singleton] at hj
        omega
      have hself := C.syms_buf.slice_blit_self (T * kept.length) (padSym T payload)
      rw [hpad] at hself
      rw [hself, List.getElem_append_right le_rfl]
      simp

/-- Adding a symbol never fails, and does what the store does. -/
theorem addSym (h : C.Holds K T kept) {id : ℤ} {payload : List UInt8} (hid : HashableId id)
    (hlen : payload.length ≤ T) :
    ∃ C', codeblockstateAddSym C id payload = .ok C' ∧
      C'.Holds K T (retain (K + 30) kept (id, payload)) := by
  rw [codeblockstateAddSym, check_bind (by rw [h.T_eq]; exact hlen), h.n_esi_eq, h.max_eq]
  by_cases hfull : kept.length ≥ K + 30
  · rw [if_pos hfull, retain, if_pos (.inl hfull)]
    exact ⟨C, rfl, h⟩
  · obtain ⟨i, hi, hreach, hfree, hprobe⟩ := h.probeHash_spec hid
    rw [if_neg hfull, hashHome_eq C hid, ok_bind, hprobe, ok_bind]
    by_cases hmem : id ∈ kept.map Prod.fst
    · rw [if_pos hmem, retain, if_pos (.inr hmem)]
      exact ⟨C, rfl, h⟩
    · rw [if_neg hmem, retain, if_neg (by tauto)]
      exact h.storeSym_ok hid hlen (by omega) hmem hi (hfree hmem) hreach

end Codeblockstate.Holds

end RqRoute
