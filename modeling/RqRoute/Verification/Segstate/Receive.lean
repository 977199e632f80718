import RqRoute.Model.Segstate
import RqRoute.Verification.Codeblockstate.Store
import RqRoute.Verification.Codec.Contract
import RqRoute.Verification.ParamDeriv.Bounds

/-! # A segment while it is received

Every segment the receiver makes is one code block, and its packets go to the symbol
store of that block. -/

namespace RqRoute

open Checked Memory Probing Dedup

variable {M : Type}

/-- The number of source symbols of a segment. -/
def segSymbols (file_len : ℕ) : ℕ := (symbolCount file_len).toNat

/-- The file lengths of one code block. -/
def SmallFile (file_len : ℕ) : Prop := 1 ≤ file_len ∧ file_len ≤ 51200000

instance (n : ℕ) : Decidable (SmallFile n) := inferInstanceAs (Decidable (_ ∧ _))

theorem SmallFile.symbols {file_len : ℕ} (h : SmallFile file_len) :
    (segSymbols file_len : ℤ) = symbolCount file_len ∧ 1 ≤ segSymbols file_len ∧
      segSymbols file_len ≤ 50000 ∧ (segSymbols file_len - 1) * 1024 < file_len ∧
      file_len ≤ segSymbols file_len * 1024 := by
  obtain ⟨h₁, h₂⟩ := h
  have hlow : (1 : ℤ) ≤ file_len := by omega
  have hb := symbolCount_bounds hlow (by unfold maxFileSize; omega)
  unfold segSymbols
  omega

theorem SmallFile.bytes_lt {file_len : ℕ} (h : SmallFile file_len) :
    segSymbols file_len * 1024 < 2 ^ 64 :=
  Nat.lt_of_le_of_lt (Nat.mul_le_mul_right 1024 h.symbols.2.2.1) (by decide)

/-! ## Initialising -/

/-- A segment without packets. -/
def initialSegment (host : Host M) (file_nbr : ℤ) (file_len : ℕ) : Segstate :=
  { file_nbr, file_len
    P := oneBlock (segSymbols file_len)
    cbstates := [codeblockstateInit host (segSymbols file_len) 1024]
    mode := .receiving
    out_fd := -1, out_cb := -1
    out_cb_buf := nullBuf, out_cb_buf_sz := 0, out_cb_buf_offs := 0 }

/-- The length of a small file is an `int`. -/
theorem SmallFile.toInt_eq {file_len : ℕ} (h : SmallFile file_len) :
    toInt (file_len : ℤ) = file_len := by
  unfold SmallFile at h
  exact toInt_of_fits ⟨by omega, by omega⟩

theorem toInt_small_iff {n : ℕ} (hn : n < 2 ^ 32) :
    (1 ≤ toInt n ∧ toInt n ≤ maxFileSize) ↔ SmallFile n := by
  unfold toInt maxFileSize SmallFile
  omega

/-- A segment is made exactly for the lengths of one code block; the length comes from a
32-bit field. -/
theorem segstateInit_eq_ok_iff {host : Host M} {file_nbr : ℤ} {file_len : ℕ}
    (hlen : file_len < 2 ^ 32) {S : Segstate} :
    segstateInit host file_nbr file_len = .ok S ↔
      SmallFile file_len ∧ S = initialSegment host file_nbr file_len := by
  rw [segstateInit, bind_eq_ok]
  simp only [paramDeriv_eq_ok_iff (fitsInt_toInt _), toInt_small_iff hlen, pure_eq_ok,
    Except.ok.injEq]
  constructor
  · rintro ⟨P, ⟨hsmall, rfl⟩, rfl⟩
    refine ⟨hsmall, ?_⟩
    simp [initialSegment, oneBlock, hsmall.toInt_eq, ← hsmall.symbols.1]
  · rintro ⟨hsmall, rfl⟩
    refine ⟨_, ⟨hsmall, rfl⟩, ?_⟩
    simp [initialSegment, oneBlock, hsmall.toInt_eq, ← hsmall.symbols.1]

/-! ## Symbol ids -/

/-- Source symbols count from 0, repair symbols from `K`. -/
theorem symbId_oneBlock {K : ℕ} (hK : K ≤ 50000) (header : RouteHeader) :
    symbId (oneBlock K) header =
      if header.ens_id = routeEnsIdSource then (header.payload_id.toNat / 1024 : ℕ)
      else (K + header.payload_id.toNat / 1024 : ℕ) := by
  have hpid := header.payload_id.toNat_lt
  unfold symbId oneBlock toInt
  simp only
  split <;> omega

theorem hashableId_symbId {K : ℕ} (hK : K ≤ 50000) (header : RouteHeader) :
    HashableId (symbId (oneBlock K) header) := by
  have hpid := header.payload_id.toNat_lt
  rw [symbId_oneBlock hK, HashableId, FitsInt, hMult]
  split <;> omega

/-! ## Adding packets -/

/-- What a successful `segstate_add_packet` went through, and that it only touched the
code blocks. -/
theorem segstateAddPacket_eq_ok {S S' : Segstate} {header : RouteHeader} {payload : List UInt8}
    (h : segstateAddPacket S header payload = .ok S') :
    (header.toi.toNat : ℤ) = S.file_nbr ∧ header.tos.toNat = S.file_len ∧
      S.mode = .receiving ∧ ∃ cbs, S' = { S with cbstates := cbs } := by
  simp only [segstateAddPacket, bind_eq_ok, check_eq_ok, pure_eq_ok, Except.ok.injEq] at h
  obtain ⟨_, htoi, _, htos, _, _, _, _, _, hmode, C, _, C', _, rfl⟩ := h
  exact ⟨htoi, htos, hmode, _, rfl⟩

/-- The segment has one code block, which holds the kept symbols. -/
structure Segstate.Receives (S : Segstate) (file_nbr : ℤ) (file_len : ℕ)
    (kept : List (ℤ × List UInt8)) : Prop where
  small : SmallFile file_len
  file_nbr_eq : S.file_nbr = file_nbr
  file_len_eq : S.file_len = file_len
  P_eq : S.P = oneBlock (segSymbols file_len)
  block : ∃ C, S.cbstates = [C] ∧ C.Holds (segSymbols file_len) 1024 kept

theorem receives_initialSegment (host : Host M) (file_nbr : ℤ) {file_len : ℕ}
    (h : SmallFile file_len) :
    (initialSegment host file_nbr file_len).Receives file_nbr file_len [] where
  small := h
  file_nbr_eq := rfl
  file_len_eq := rfl
  P_eq := rfl
  block := ⟨_, rfl, holds_codeblockstateInit host _ _⟩

/-- A packet that the assertions of `segstate_add_packet` let through. -/
structure PacketFor (file_nbr : ℤ) (file_len : ℕ) (p : RouteHeader × List UInt8) : Prop where
  toi : (p.1.toi.toNat : ℤ) = file_nbr
  tos : p.1.tos.toNat = file_len
  payload : p.2.length ≤ 1024

instance (file_nbr : ℤ) (file_len : ℕ) (p : RouteHeader × List UInt8) :
    Decidable (PacketFor file_nbr file_len p) :=
  decidable_of_iff ((p.1.toi.toNat : ℤ) = file_nbr ∧ p.1.tos.toNat = file_len ∧ p.2.length ≤ 1024)
    ⟨fun h => ⟨h.1, h.2.1, h.2.2⟩, fun h => ⟨h.toi, h.tos, h.payload⟩⟩

/-- The symbol a packet brings. -/
def packetSymbol (K : ℕ) (p : RouteHeader × List UInt8) : ℤ × List UInt8 :=
  (symbId (oneBlock K) p.1, p.2)

/-- One packet: it is stored as the symbol store says, and nothing else changes. -/
theorem Segstate.Receives.addPacket {S : Segstate} {file_nbr : ℤ} {file_len : ℕ}
    {kept : List (ℤ × List UInt8)} (h : S.Receives file_nbr file_len kept)
    (hmode : S.mode = .receiving) {p : RouteHeader × List UInt8}
    (hp : PacketFor file_nbr file_len p) :
    ∃ S', segstateAddPacket S p.1 p.2 = .ok S' ∧
      S'.Receives file_nbr file_len
        (retain (segSymbols file_len + 30) kept (packetSymbol (segSymbols file_len) p)) ∧
      S'.mode = .receiving ∧ S'.out_fd = S.out_fd := by
  obtain ⟨C, hC, hholds⟩ := h.block
  have hK := h.small.symbols.2.2.1
  obtain ⟨C', hadd, hholds'⟩ := hholds.addSym (hashableId_symbId hK p.1) hp.payload
  refine ⟨{ S with cbstates := [C'] }, ?_, ⟨h.small, h.file_nbr_eq, h.file_len_eq, h.P_eq,
    ⟨C', rfl, hholds'⟩⟩, hmode, rfl⟩
  rw [segstateAddPacket, check_bind (by rw [hp.toi, h.file_nbr_eq]),
    check_bind (by rw [hp.tos, h.file_len_eq]), check_bind (by rw [h.P_eq]; rfl),
    check_bind (Nat.zero_le _), check_bind hmode, hC, h.P_eq]
  simp only [List.head?_cons, orElse_some, ok_bind, hadd, List.tail_cons, pure_eq_ok]

/-- Only such a packet, and only while the segment is received, gets past the assertions. -/
theorem Segstate.Receives.of_addPacket {S S' : Segstate} {file_nbr : ℤ} {file_len : ℕ}
    {kept : List (ℤ × List UInt8)} (h : S.Receives file_nbr file_len kept)
    {p : RouteHeader × List UInt8} (hadd : segstateAddPacket S p.1 p.2 = .ok S') :
    S.mode = .receiving ∧ PacketFor file_nbr file_len p := by
  obtain ⟨htoi, htos, hmode, -⟩ := segstateAddPacket_eq_ok hadd
  obtain ⟨C, hC, hholds⟩ := h.block
  refine ⟨hmode, htoi.trans h.file_nbr_eq, htos.trans h.file_len_eq, ?_⟩
  simp only [segstateAddPacket, bind_eq_ok, check_eq_ok, hC, List.head?_cons, orElse_some,
    ok_bind, codeblockstateAddSym, hholds.T_eq] at hadd
  obtain ⟨_, -, _, -, _, -, _, -, _, -, _, ⟨_, hlen, -⟩, -⟩ := hadd
  exact hlen

/-- The packets of a segment, one after the other. -/
def addPackets (S : Segstate) (pkts : List (RouteHeader × List UInt8)) : Except Fault Segstate :=
  pkts.foldlM (fun S p => segstateAddPacket S p.1 p.2) S

theorem addPackets_append_singleton (S : Segstate) (pkts : List (RouteHeader × List UInt8))
    (p : RouteHeader × List UInt8) :
    addPackets S (pkts ++ [p]) = addPackets S pkts >>= fun S => segstateAddPacket S p.1 p.2 := by
  simp [addPackets]

/-- A segment holds what the store keeps of the symbols of its packets. -/
theorem addPackets_receives (host : Host M) (file_nbr : ℤ) {file_len : ℕ}
    (hsmall : SmallFile file_len) (pkts : List (RouteHeader × List UInt8))
    (hpkts : ∀ p ∈ pkts, PacketFor file_nbr file_len p) :
    ∃ S, addPackets (initialSegment host file_nbr file_len) pkts = .ok S ∧
      S.Receives file_nbr file_len
        (retainAll (segSymbols file_len + 30) (pkts.map (packetSymbol (segSymbols file_len)))) ∧
      S.mode = .receiving ∧ S.out_fd = -1 := by
  induction pkts using List.reverseRecOn with
  | nil => exact ⟨_, rfl, receives_initialSegment host file_nbr hsmall, rfl, rfl⟩
  | append_singleton pkts p ih =>
      obtain ⟨S, hadd, hrec, hmode, hfd⟩ := ih fun q hq => hpkts q (by simp [hq])
      obtain ⟨S', hadd', hrec', hmode', hfd'⟩ := hrec.addPacket hmode (hpkts p (by simp))
      refine ⟨S', ?_, ?_, hmode', hfd'.trans hfd⟩
      · rw [addPackets_append_singleton, hadd, ok_bind, hadd']
      · rw [List.map_append, List.map_singleton, retainAll_append_singleton]
        exact hrec'

/-! ## The symbol store -/

theorem segSymbols_eq {K file_len : ℕ}
    (hlen : (K - 1) * 1024 < file_len ∧ file_len ≤ K * 1024) : segSymbols file_len = K := by
  unfold segSymbols symbolCount
  omega

/-- The slot of a kept symbol holds the payload of the first packet with its id. -/
theorem Codeblockstate.Holds.slot_first {C : Codeblockstate} {K T cap : ℕ}
    {pkts : List (RouteHeader × List UInt8)}
    (h : C.Holds K T (retainAll cap (pkts.map (packetSymbol K)))) {i : ℕ} (hi : i < C.esis.length) :
    ∃ p, pkts.find? (fun p => symbId (oneBlock K) p.1 = C.esis[i]) = some p ∧
      C.syms_buf.slice (T * i) T = padSym T p.2 := by
  have hkept : i < (retainAll cap (pkts.map (packetSymbol K))).length := by
    simpa [h.esis_eq] using hi
  have hid : C.esis[i] = ((retainAll cap (pkts.map (packetSymbol K)))[i]).1 := by
    simp [h.esis_eq]
  have hfirst := find?_of_mem_retainAll (List.getElem_mem hkept)
  rw [List.find?_map, Option.map_eq_some_iff] at hfirst
  obtain ⟨p, hp, hsym⟩ := hfirst
  refine ⟨p, ?_, ?_⟩
  · rw [hid]
    exact hp
  · rw [h.syms i hkept, ← hsym]
    rfl

/-- `segstate_add_packet` refines "drop duplicates, then keep the first `K + 30`": no
assertion, index or product goes wrong, and the arrays of the code block hold the first
`K + 30` distinct ids in order of arrival, each with the payload of its first packet. -/
theorem segment_symbol_store (host : Host M) (file_nbr : ℤ) (K file_len : ℕ)
    (hK : 1 ≤ K ∧ K ≤ 50000) (hlen : (K - 1) * 1024 < file_len ∧ file_len ≤ K * 1024)
    (pkts : List (RouteHeader × List UInt8))
    (hpkts : ∀ p ∈ pkts, PacketFor file_nbr file_len p) :
    ∃ S₀ S C, segstateInit host file_nbr file_len = .ok S₀ ∧
      addPackets S₀ pkts = .ok S ∧ S.cbstates = [C] ∧ C.K = K ∧
      C.esis = ((pkts.map fun p => symbId S₀.P p.1).eraseDups).take (K + 30) ∧
      C.n_esi = C.esis.length ∧
      (∀ i (h : i < C.esis.length), ∃ p,
        pkts.find? (fun p => symbId S₀.P p.1 = C.esis[i]) = some p ∧
        C.syms_buf.slice (1024 * i) 1024 = padSym 1024 p.2) ∧
      (∀ p ∈ pkts, FitsInt (symbId S₀.P p.1 * hMult)) ∧
      (∀ id, HashableId id → ∃ home found, hashHome C id = .ok home ∧ home < C.hash_esi.size ∧
        probeHash C id C.hash_esi_sz home = .ok found ∧ (found = none ↔ id ∈ C.esis)) := by
  have hsmall : SmallFile file_len := by
    unfold SmallFile
    omega
  have hsym := segSymbols_eq hlen
  obtain ⟨S, hadd, hrec, -, -⟩ := addPackets_receives host file_nbr hsmall pkts hpkts
  obtain ⟨C, hC, hholds⟩ := hrec.block
  have hP : (initialSegment host file_nbr file_len).P = oneBlock K := by
    simp [initialSegment, hsym]
  rw [hsym] at hholds
  refine ⟨_, S, C, (segstateInit_eq_ok_iff (by unfold SmallFile at hsmall; omega)).mpr
    ⟨hsmall, rfl⟩, hadd, hC, hholds.K_eq, ?_, ?_, ?_, ?_, ?_⟩
  · rw [hholds.esis_eq, keys_retainAll, List.map_map, hP]
    rfl
  · rw [hholds.n_esi_eq, hholds.esis_eq, List.length_map]
  · rw [hP]
    exact fun i hi => hholds.slot_first hi
  · rw [hP]
    exact fun p _ => (hashableId_symbId hK.2 p.1).2
  · intro id hid
    have hpos := hholds.hash_pos
    obtain ⟨i, hi, -, -, hprobe⟩ := hholds.probeHash_spec hid
    refine ⟨_, _, hashHome_eq C hid, ?_, hprobe, ?_⟩
    · rw [hholds.hash_size]
      exact homeSlot_lt (by omega) id
    · rw [hholds.esis_eq]
      split <;> simp_all

/-- Three packets of a segment of five bytes; the last one repeats the first symbol. -/
def threePackets : List (RouteHeader × List UInt8) :=
  [({ ens_id := routeEnsIdSource, toi := 2, payload_id := 0, tos := 5 }, [1, 2, 3, 4, 5]),
    ({ ens_id := routeEnsIdRepair, toi := 2, payload_id := 0, tos := 5 }, [6]),
    ({ ens_id := routeEnsIdSource, toi := 2, payload_id := 1023, tos := 5 }, [7])]

theorem segment_symbol_store_three :
    ∃ S C, addPackets (initialSegment refusingHost 2 5) threePackets = .ok S ∧
      S.cbstates = [C] ∧ C.esis = [0, 1] ∧
      C.syms_buf.slice 0 1024 = padSym 1024 [1, 2, 3, 4, 5] := by
  obtain ⟨S₀, S, C, hinit, hadd, hC, -, hesis, -, hslots, -⟩ :=
    segment_symbol_store refusingHost 2 1 5 (by decide) (by decide) threePackets (by decide)
  obtain ⟨-, rfl⟩ := (segstateInit_eq_ok_iff (by decide)).mp hinit
  have hids : C.esis = [0, 1] := hesis.trans (by decide)
  obtain ⟨p, hp, hslot⟩ := hslots 0 (by rw [hids]; decide)
  simp only [hids, List.getElem_cons_zero] at hp
  have hfirst : some p = threePackets[0]? := hp.symm.trans (by decide)
  refine ⟨S, C, hadd, hC, hids, hslot.trans ?_⟩
  rw [Option.some.inj hfirst]

end RqRoute
