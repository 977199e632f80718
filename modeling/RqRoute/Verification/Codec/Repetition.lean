import RqRoute.Verification.Codeblockstate.Reconstruct
import RqRoute.Verification.Codec.StaleFree

/-! # A repetition code

A small codec that decodes: each repair symbol repeats a source symbol. It keeps the contract,
its results depend on nothing else, and it restores every block of which each source symbol
was received in some copy. -/

namespace RqRoute

open Checked Memory Dedup

/-- The source symbol that symbol `id` repeats. -/
def repeated (K : ℕ) (id : ℤ) : ℕ := (id % K).toNat

/-- There is a copy of every source symbol among these ids. -/
def Covers (K : ℕ) (ids : List ℤ) : Prop := ∀ i < K, ∃ id ∈ ids, repeated K id = i

instance (K : ℕ) (ids : List ℤ) : Decidable (Covers K ids) := Nat.decidableBallLT K _

/-- The first of these ids that repeats source symbol `i`. -/
def firstCopy (K : ℕ) (ids : List ℤ) (i : ℕ) : ℕ := ids.findIdx fun id => repeated K id = i

/-- Copy `count` symbols, symbol `i` from place `place i`. -/
def copySymbols (T : ℕ) (place : ℕ → ℕ) (count : ℕ) (b out : Bytes) : Bytes := fun n =>
  if n < T * count then b (T * place (n / T) + n % T) else out n

/-- The number of symbols and the ids of a block. -/
abbrev RepetitionMem := ℕ × List ℤ

/-- The codec: an intermediate block is the source block. -/
def repetitionHost : Host RepetitionMem where
  errInsuffIds := -2
  interGetMemSizes K _ := (0, 1, 1, K.toNat)
  outGetMemSizes _ := (0, 1, 1)
  interInit K _ _ _ := (0, K.toNat, [])
  interAddIds work lo n := (0, work.1, work.2 ++ idRange lo n)
  interCompile work _ _ := (if Covers work.1 work.2 then 0 else -2, work, work)
  interExecute prog T syms _ out _ :=
    if Covers prog.1 prog.2 then (0, copySymbols T (firstCopy prog.1 prog.2) prog.1 syms out)
    else (-1, out)
  outInit K _ _ := (0, K.toNat, [])
  outAddIds work lo n := (0, work.1, work.2 ++ idRange lo n)
  outCompile work _ _ := (0, work, work)
  outExecute prog T inter out _ :=
    if 0 < prog.1 then
      (0, copySymbols T (fun i => repeated prog.1 (prog.2.getD i 0)) prog.2.length inter out)
    else (-1, out)
  freshWork := (0, [])
  freshByte _ := 0
  freshInt _ := 0

theorem repeated_of_lt {K i : ℕ} (h : i < K) : repeated K i = i := by
  rw [repeated, ← Int.natCast_mod, Nat.mod_eq_of_lt h]
  rfl

theorem repeated_lt {K : ℕ} (hK : 0 < K) (id : ℤ) : repeated K id < K := by
  have hlt := Int.emod_lt_of_pos id (Int.natCast_pos.mpr hK)
  have hnonneg := Int.emod_nonneg id (by omega : (K : ℤ) ≠ 0)
  unfold repeated
  omega

theorem Covers.firstCopy_lt {K : ℕ} {ids : List ℤ} (h : Covers K ids) {i : ℕ} (hi : i < K) :
    firstCopy K ids i < ids.length := by
  obtain ⟨id, hid, rfl⟩ := h i hi
  exact List.findIdx_lt_length_of_exists ⟨id, hid, by simp⟩

theorem repeated_firstCopy {K : ℕ} {ids : List ℤ} {i : ℕ} (h : firstCopy K ids i < ids.length) :
    repeated K ids[firstCopy K ids i] = i := by
  exact of_decide_eq_true (List.findIdx_getElem (w := h))

theorem bytesAt_copySymbols {T count i : ℕ} (place : ℕ → ℕ) (b out : Bytes) (hi : i < count) :
    bytesAt (copySymbols T place count b out) (T * i) T = bytesAt b (T * place i) T := by
  refine List.map_congr_left fun k hk => ?_
  have hT : k < T := List.mem_range.mp hk
  have hin : T * i + k < T * count := by
    have hle := Nat.mul_le_mul_left T (Nat.succ_le_of_lt hi)
    rw [Nat.mul_succ] at hle
    omega
  rw [copySymbols, if_pos hin, Nat.mul_add_div (by omega), Nat.div_eq_of_lt hT, Nat.add_zero,
    Nat.mul_add_mod, Nat.mod_eq_of_lt hT]

/-! ## The contract -/

def repetitionContract : CodecContract repetitionHost.toRqApi where
  encode K _ src id := src (repeated K id)
  InterWork work K ids := work = (K, ids)
  InterProg prog K ids := prog = (K, ids)
  OutWork work K ids := work = (K, ids)
  OutProg prog K ids := prog = (K, ids)
  Inter b K T src := ∀ i < K, bytesAt b (T * i) T = src i
  systematic h := by rw [repeated_of_lt h]
  interInit _ := rfl
  interAddIds := by
    rintro K ids work lo n rfl -
    rfl
  interCompile := by
    rintro K ids work prog sz rfl -
    rfl
  interExecute := by
    rintro K T src ids prog syms sz out outsz rfl - hsyms hrc i hi
    have hcovers : Covers K ids := by
      by_contra hno
      simp [repetitionHost, hno] at hrc
    have hcopy := hcovers.firstCopy_lt hi
    simp only [repetitionHost, if_pos hcovers]
    rw [bytesAt_copySymbols _ _ _ hi, hsyms _ hcopy]
    simp only [repeated_firstCopy hcopy]
  outInit _ := rfl
  outAddIds := by
    rintro K ids work lo n rfl -
    rfl
  outCompile := by
    rintro K ids work prog sz rfl -
    rfl
  outExecute := by
    rintro K T src ids prog inter out outsz rfl hinter hrc i hi
    have hK : 0 < K := by
      by_contra hno
      simp [repetitionHost, hno] at hrc
    simp only [repetitionHost, if_pos hK]
    rw [bytesAt_copySymbols _ _ _ hi, hinter _ (repeated_lt hK _), List.getD_eq_getElem?_getD,
      List.getElem?_eq_getElem hi, Option.getD_some]

/-! ## No stale memory -/

/-- The bytes of a list, from the beginning of a memory. -/
def listBytes (xs : List UInt8) : Bytes := fun n => xs.getD n 0

theorem listBytes_bytesAt (b : Bytes) {n size : ℕ} (h : n < size) :
    listBytes (bytesAt b 0 size) n = b n := by
  simp [listBytes, bytesAt, h]

/-- Symbols that are copied from inside a memory do not depend on what is around it. -/
theorem copySymbols_bytesAt {T count size n : ℕ} {place : ℕ → ℕ} (b out out' : Bytes)
    (hplace : ∀ i < count, place i < size) (hn : n < T * count) :
    copySymbols T place count (listBytes (bytesAt b 0 (T * size))) out' n =
      copySymbols T place count b out n := by
  have hT : 0 < T := Nat.pos_of_ne_zero fun h => by simp [h] at hn
  have hin := Nat.mul_le_mul_left T (Nat.succ_le_of_lt (hplace (n / T) (Nat.div_lt_of_lt_mul hn)))
  have hmod := Nat.mod_lt n hT
  rw [Nat.mul_succ] at hin
  rw [copySymbols, copySymbols, if_pos hn, if_pos hn, listBytes_bytesAt b (by omega)]

/-- What an intermediate block is, for these ids and symbols. -/
def repetitionInter (K : ℕ) (ids : List ℤ) (T : ℕ) (syms : List UInt8) : Bytes :=
  copySymbols T (firstCopy K ids) K (listBytes syms) fun _ => 0

def repetitionStaleFree : StaleFree repetitionHost.toRqApi where
  InterWork K _ ids work := work = (K.toNat, ids)
  InterProg K _ ids prog := prog = (K.toNat, ids)
  Inter K _ ids T syms b :=
    bytesAt b 0 (T * K.toNat) = bytesAt (repetitionInter K.toNat ids T syms) 0 (T * K.toNat)
  OutWork K _ ids work := work = (K.toNat, ids)
  OutProg K _ ids prog := prog = (K.toNat, ids)
  interInit _ _ := ⟨0, fun _ _ _ => ⟨rfl, fun _ => rfl⟩⟩
  interAddIds _ _ _ _ _ := ⟨0, fun _ h => ⟨rfl, fun _ => by rw [h]; rfl⟩⟩
  interCompile K _ ids :=
    ⟨if Covers K.toNat ids then 0 else -2, fun _ _ _ h _ => ⟨by rw [h]; rfl, fun _ => h⟩⟩
  interExecute K _ ids T syms := by
    by_cases hcovers : Covers K.toNat ids
    · refine ⟨0, ?_⟩
      rintro prog b bsz out outsz rfl rfl - -
      simp only [repetitionHost, if_pos hcovers]
      refine ⟨trivial, fun _ => List.map_congr_left fun n hn => ?_⟩
      rw [Nat.zero_add, repetitionInter, copySymbols_bytesAt b out _ (fun i => hcovers.firstCopy_lt)
        (List.mem_range.mp hn)]
    · refine ⟨-1, ?_⟩
      rintro prog b bsz out outsz rfl - - -
      simp [repetitionHost, hcovers]
  outInit _ _ := ⟨0, fun _ _ _ => ⟨rfl, fun _ => rfl⟩⟩
  outAddIds _ _ _ _ _ := ⟨0, fun _ h => ⟨rfl, fun _ => by rw [h]; rfl⟩⟩
  outCompile _ _ _ := ⟨0, fun _ _ _ h _ => ⟨rfl, fun _ => h⟩⟩
  outExecute K _ ids T syms _ outIds old := by
    by_cases hK : 0 < K.toNat
    · refine ⟨0, bytesAt (copySymbols T (fun i => repeated K.toNat (outIds.getD i 0)) outIds.length
        (listBytes (bytesAt (repetitionInter K.toNat ids T syms) 0 (T * K.toNat))) fun _ => 0) 0
          (T * outIds.length), ?_⟩
      rintro prog inter out outsz rfl hinter - -
      simp only [repetitionHost, if_pos hK]
      refine ⟨trivial, List.map_congr_left fun n hn => ?_⟩
      rw [Nat.zero_add, ← hinter, copySymbols_bytesAt inter out _ (fun i _ => repeated_lt hK _)
        (List.mem_range.mp hn)]
    · refine ⟨-1, old, ?_⟩
      rintro prog inter out outsz rfl - hold -
      simp [repetitionHost, hK, hold]

/-! ## Decoding -/

theorem interAddEsis_repetition (work : RepetitionMem) (ids : List ℤ) :
    interAddEsis repetitionHost work ids = (0, work.1, work.2 ++ ids) := by
  induction ids generalizing work with
  | nil => simp [interAddEsis]
  | cons id ids ih =>
      rw [interAddEsis]
      simp only [repetitionHost, idRange_one]
      rw [if_neg (by decide)]
      refine (ih _).trans ?_
      rw [List.append_assoc, List.singleton_append]

section
variable {C : Codeblockstate} {K T : ℕ} {kept : List (ℤ × List UInt8)}

theorem interBlock_repetition (h : C.Holds K T kept) (hcovers : Covers K (kept.map Prod.fst))
    (m : DataMem RepetitionMem) : ∃ m', interBlock repetitionHost C m = .ok m' := by
  simp only [interBlock, interAddEsis_repetition, h.K_eq, h.esis_eq]
  simp [repetitionHost, runNofail, DataMem.setInterWork, DataMem.setInterProg, hcovers]

theorem outBlock_repetition (h : C.Holds K T kept) (hK : 0 < K) (sz : ℕ)
    (m : DataMem RepetitionMem) : ∃ m', outBlock repetitionHost C sz m = .ok m' := by
  simp only [outBlock, h.K_eq]
  simp [repetitionHost, runNofail, DataMem.setOutWork, DataMem.setOutProg, hK]

/-- Decoding succeeds when there is a copy of every source symbol. -/
theorem decodeBlock_repetition (h : C.Holds K T kept) (hK : 0 < K)
    (hcovers : Covers K (kept.map Prod.fst)) (sz : ℕ) (m : DataMem RepetitionMem) :
    ∃ m', decodeBlock repetitionHost C sz m = .ok m' := by
  obtain ⟨m₁, hinter⟩ := interBlock_repetition h hcovers { m with
    codec_mem := (rqMemBlocksIncludeCase repetitionHost m.codec_mem C.K (C.n_esi - C.K : ℤ) C.K
      C.T).2 }
  obtain ⟨m₂, hout⟩ := outBlock_repetition h hK sz m₁
  refine ⟨m₂, ?_⟩
  have hroom : (rqMemBlocksIncludeCase repetitionHost m.codec_mem C.K (C.n_esi - C.K : ℤ) C.K
      C.T).1 = 0 := rfl
  rw [decodeBlock, hroom]
  exact (congrArg (· >>= outBlock repetitionHost C sz) hinter).trans hout

/-- Then the result is right, whether it was decoded or copied. -/
theorem getData_repetition (h : C.Holds K T kept) (hK : 0 < K)
    (hcovers : Covers K (kept.map Prod.fst)) (hcount : K ≤ kept.length) {sz : ℕ}
    (hsz : K * T ≤ sz) {m m' : DataMem RepetitionMem} (hsize : K * T ≤ m.data_out.size)
    {exit : DataExit} (hget : codeblockstateGetData repetitionHost C sz m = .ok (exit, m')) :
    exit.ret = true := by
  by_cases hcopy : C.n_src_esi ≥ K ∨ kept.length < K
  · obtain ⟨_, hcopied, -⟩ := h.getData_copied repetitionHost hsz hsize hcopy
    obtain ⟨rfl, -⟩ := Prod.mk.inj (Except.ok.inj (hget.symm.trans hcopied))
    rw [if_pos (by omega)]
    rfl
  · obtain ⟨m₁, hdec⟩ := decodeBlock_repetition h hK hcovers sz
      { m with data_out := clearedBlock K T m.data_out }
    rcases h.getData_decoded hsz hsize hcopy hget with ⟨rfl, -⟩ | ⟨_, herror, -⟩
    · rfl
    · cases hdec.symm.trans herror

end

end RqRoute
