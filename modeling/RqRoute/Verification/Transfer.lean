import RqRoute.Verification.Codec.Repetition
import RqRoute.Verification.Codeblockstate.Decode
import RqRoute.Verification.Segstate.Output
import RqRoute.Verification.Sender.Repair

/-! # Transfer of a segment

A file is sent, some of its datagrams arrive, and the segment they make is written out. -/

namespace RqRoute

open Checked Memory Chunks Dedup

variable {M : Type}

/-- The ids of the symbols that arrive, in order. -/
def symbolIds (content : List UInt8) (ds : List Datagram) : List ℤ :=
  ds.map fun d => symbId (oneBlock (segSymbols content.length)) d.header

/-- The first `K + 30` distinct symbols that arrive. -/
def firstSymbols (content : List UInt8) (ds : List Datagram) : List ℤ :=
  ((symbolIds content ds).eraseDups).take (segSymbols content.length + 30)

/-- The symbols that a code block keeps of the datagrams. -/
def keptSymbols (content : List UInt8) (ds : List Datagram) : List (ℤ × List UInt8) :=
  retainAll (segSymbols content.length + 30)
    ((ds.map fun d => (d.header, d.payload)).map (packetSymbol (segSymbols content.length)))

theorem keys_keptSymbols (content : List UInt8) (ds : List Datagram) :
    (keptSymbols content ds).map Prod.fst = firstSymbols content ds := by
  rw [keptSymbols, keys_retainAll, List.map_map, List.map_map]
  rfl

/-- The receiver adds what was sent to one code block. -/
theorem addPackets_sent {sender : Host M} (host : Host M) {content : List UInt8}
    (hsmall : SmallFile content.length) {file_nbr nExtra : ℤ} {ds : List Datagram}
    (hds : ∀ d ∈ ds, EmittedBy sender content file_nbr nExtra d) :
    ∃ S, addPackets (initialSegment host (file_nbr % 65536) content.length)
        (ds.map fun d => (d.header, d.payload)) = .ok S ∧
      S.Receives (file_nbr % 65536) content.length (keptSymbols content ds) ∧ S.out_fd = -1 := by
  have hpkts : ∀ p ∈ ds.map (fun d => (d.header, d.payload)),
      PacketFor (file_nbr % 65536) content.length p := by
    intro p hp
    obtain ⟨d, hd, rfl⟩ := List.mem_map.mp hp
    exact ⟨(hds d hd).toi, (hds d hd).tos hsmall, (hds d hd).payload_le⟩
  obtain ⟨S, hadd, hrec, -, hfd⟩ := addPackets_receives host (file_nbr % 65536) hsmall _ hpkts
  exact ⟨S, hadd, hrec, hfd⟩

/-- What is kept are symbols of the file. -/
theorem storesSymbols_kept {sender host : Host M} (codec : CodecContract host.toRqApi)
    (hsame : sender.toRqApi = host.toRqApi) {content : List UInt8}
    (hsmall : SmallFile content.length) {file_nbr nExtra : ℤ} (hextra : nExtra * 1024 < 2 ^ 31)
    {ds : List Datagram} (hds : ∀ d ∈ ds, EmittedBy sender content file_nbr nExtra d) :
    StoresSymbols codec (segSymbols content.length) 1024 (sourceSym content)
      (keptSymbols content ds) := by
  intro p hp
  have hfirst := List.mem_of_find?_eq_some (find?_of_mem_retainAll hp)
  obtain ⟨q, hq, rfl⟩ := List.mem_map.mp hfirst
  obtain ⟨d, hd, rfl⟩ := List.mem_map.mp hq
  exact (hds d hd).payload_eq codec hsame hsmall hextra

theorem allSource_keptSymbols {content : List UInt8} {ds : List Datagram}
    (h : sourceIds (segSymbols content.length) ⊆ firstSymbols content ds) :
    AllSource (segSymbols content.length) (keptSymbols content ds) := by
  intro i hi
  have hmem := h (mem_sourceIds.mpr ⟨Int.natCast_nonneg i, by omega⟩)
  rw [← keys_keptSymbols] at hmem
  obtain ⟨p, hp, hpi⟩ := List.mem_map.mp hmem
  exact ⟨p, hp, hpi⟩

/-- What the copying loop makes of stored symbols: the source symbols, and zeros for those
that are missing. -/
theorem zeroFilled_of_stores {host : Host M} (codec : CodecContract host.toRqApi) {K T : ℕ}
    {src : ℕ → List UInt8} {kept : List (ℤ × List UInt8)}
    (hkept : StoresSymbols codec K T src kept) {i : ℕ} (hi : i < K) :
    zeroFilled T kept i =
      if (i : ℤ) ∈ kept.map Prod.fst then src i else List.replicate T 0 := by
  unfold zeroFilled
  cases hfind : kept.find? fun p => p.1 = (i : ℤ) with
  | none =>
      rw [List.find?_eq_none] at hfind
      rw [if_neg]
      rintro hmem
      obtain ⟨p, hp, hpi⟩ := List.mem_map.mp hmem
      exact hfind p hp (by simpa using hpi)
  | some p =>
      have hp := List.mem_of_find?_eq_some hfind
      have hpi : p.1 = (i : ℤ) := by simpa using List.find?_some hfind
      rw [if_pos (List.mem_map.mpr ⟨p, hp, hpi⟩)]
      simp only [hkept p hp, hpi, codec.systematic hi]

/-- The source block at the exits of `codeblockstate_get_data`, when symbols of the file
are stored: the file where a result is promised, and the file with the missing symbols
zeroed where the copying loop ran. -/
theorem DataSpec.source {host : Host M} (codec : CodecContract host.toRqApi)
    {content : List UInt8} (hsmall : SmallFile content.length) {C : Codeblockstate}
    {kept : List (ℤ × List UInt8)} (hholds : C.Holds (segSymbols content.length) 1024 kept)
    (hkept : StoresSymbols codec (segSymbols content.length) 1024 (sourceSym content) kept)
    {sz : ℕ} {m m' : DataMem M} {exit : DataExit}
    (h : DataSpec host C (segSymbols content.length) 1024 kept sz m exit m') :
    (exit.ret = true → m'.data_out.slice 0 content.length = content) ∧
      (exit = .tooFew ∨ exit = .insuffIds → m'.data_out.slice 0 content.length =
        blot 1024 0 (fun i => decide ((i : ℤ) ∈ kept.map Prod.fst)) content) := by
  have hle := hsmall.symbols.2.2.2.2
  have hwhole : (∀ i < segSymbols content.length,
      m'.data_out.slice (i * 1024) 1024 = sourceSym content i) →
        m'.data_out.slice 0 content.length = content := by
    intro hslices
    rw [slice_eq_blot (z := 0) (fun _ => true) (by decide) hle hslices]
    exact blot_all fun _ _ => rfl
  constructor
  · intro hret
    apply hwhole
    intro i hi
    cases exit with
    | allSource =>
        rw [h.copied (.inl rfl) i hi, zeroFilled_of_stores codec hkept hi, if_pos]
        obtain ⟨p, hp, hpi⟩ := h.all_iff.mp rfl i hi
        exact List.mem_map.mpr ⟨p, hp, hpi⟩
    | decoded =>
        exact decodeBlock_ok codec hholds (fun i _ => length_sourceSym content i) hkept
          (h.decoded rfl) hi
    | tooFew | callFailed | insuffIds | compileError => cases hret
  · intro hexit
    apply slice_eq_blot _ (by decide) hle
    intro i hi
    rw [h.copied (.inr hexit) i hi, zeroFilled_of_stores codec hkept hi]
    simp only [decide_eq_true_eq]
    rfl

/-- End to end, for any losses, any order and any repetitions: as many bytes are written as
the file has; they are the file when `codeblockstate_get_data` returned true, which it does
when the source symbols are among the first `K + 30`; and where it had to copy what there
is, they are the file with the missing source symbols zeroed. -/
theorem segment_transfer {sender host : Host M} (codec : CodecContract host.toRqApi)
    (hsame : sender.toRqApi = host.toRqApi) {content : List UInt8}
    (hsmall : SmallFile content.length) {file_nbr nExtra : ℤ}
    (hextra : 0 ≤ nExtra ∧ nExtra * 1024 < 2 ^ 31) {ds : List Datagram}
    (hds : ∀ d ∈ ds, d ∈ (xmitFile sender (some content) file_nbr nExtra).sent)
    (fd : ℕ) (codec_mem : RqMemBlocks M) :
    ∃ S₀ S C exit m' m out,
      segstateInit host (file_nbr % 65536) content.length = .ok S₀ ∧
      addPackets S₀ (ds.map fun d => (d.header, d.payload)) = .ok S ∧
      S.cbstates = [C] ∧
      codeblockstateGetData host C (segSymbols content.length * 1024)
        { codec_mem, data_out := freshOutput host content.length } = .ok (exit, m') ∧
      segstatePrepareOutput host S fd codec_mem = .ok m ∧ m.S.out_cb_buf = m'.data_out ∧
      out.length = content.length ∧
      (∀ ws, segstateWriteAll host m ws =
        .ok (out.take ws.sum, decide (content.length ≤ ws.sum))) ∧
      (exit.ret = true → out = content) ∧
      (sourceIds (segSymbols content.length) ⊆ firstSymbols content ds → exit.ret = true) ∧
      ((symbolIds content ds).eraseDups.length < segSymbols content.length → exit = .tooFew) ∧
      (exit = .tooFew ∨ exit = .insuffIds → out =
        blot 1024 0 (fun i => decide ((i : ℤ) ∈ firstSymbols content ds)) content) := by
  have hsent : ∀ d ∈ ds, EmittedBy sender content file_nbr nExtra d :=
    fun d hd => xmitFile_sent hsmall (hds d hd)
  obtain ⟨S, hadd, hrec, hfd⟩ := addPackets_sent host hsmall hsent
  obtain ⟨C, exit, m', S', hC, hholds, hget, hspec, hprep, hw, hfd', hbuf⟩ :=
    hrec.prepareOutput hfd host fd codec_mem
  obtain ⟨hret, hblot⟩ := hspec.source codec hsmall hholds
    (storesSymbols_kept codec hsame hsmall hextra.2 hsent)
  have hids := keys_keptSymbols content ds
  refine ⟨_, S, C, exit, m', _, m'.data_out.slice 0 content.length,
    (segstateInit_eq_ok_iff (by unfold SmallFile at hsmall; omega)).mpr ⟨hsmall, rfl⟩, hadd, hC,
    hget, hprep, hbuf, by simp, ?_, hret, ?_, ?_, ?_⟩
  · intro ws
    have hopen : S'.out_fd ≠ -1 := by
      rw [hfd']
      omega
    rw [hw.writeAll_start hopen, hbuf]
  · intro hall
    rw [hspec.all_iff.mpr (allSource_keptSymbols hall)]
    rfl
  · intro hfew
    apply hspec.few_iff.mpr
    have hlen := congrArg List.length hids
    rw [List.length_map, firstSymbols, List.length_take] at hlen
    omega
  · rw [← hids]
    exact hblot

/-- A file of two symbols. -/
def twoSymbols : List UInt8 := (List.range 1500).map UInt8.ofNat

/-- Under a repetition code the first source symbol is lost, and the repair symbol restores it. -/
theorem segment_transfer_tiny :
    ∃ ds S₀ S m, (∀ d ∈ ds, d ∈ (xmitFile repetitionHost (some twoSymbols) 0 1).sent) ∧
      symbolIds twoSymbols ds = [1, 2] ∧
      segstateInit repetitionHost 0 twoSymbols.length = .ok S₀ ∧
      addPackets S₀ (ds.map fun d => (d.header, d.payload)) = .ok S ∧
      segstatePrepareOutput repetitionHost S (3 : ℕ) (.zero repetitionHost) = .ok m ∧
      segstateWriteAll repetitionHost m [0, 1000, 1000] = .ok (twoSymbols, true) := by
  obtain ⟨ds, hds⟩ : ∃ ds, ds = (xmitFile repetitionHost (some twoSymbols) 0 1).sent.tail :=
    ⟨_, rfl⟩
  have hids : symbolIds twoSymbols ds = [1, 2] := by
    rw [hds]
    decide +kernel
  have hsent : ∀ d ∈ ds, d ∈ (xmitFile repetitionHost (some twoSymbols) 0 1).sent := fun d hd =>
    List.mem_of_mem_tail (hds ▸ hd)
  have hlen : twoSymbols.length = 1500 := by simp [twoSymbols]
  have hsmall : SmallFile twoSymbols.length := by
    rw [hlen]
    decide
  obtain ⟨S₀, S, C, exit, m', m, out, hinit, hadd, hC, hget, hprep, -, -, hwrite, hout, -⟩ :=
    segment_transfer repetitionContract rfl hsmall (by decide) hsent 3 (.zero repetitionHost)
  refine ⟨ds, S₀, S, m, hsent, hids, hinit, hadd, hprep, ?_⟩
  have hkeys : (keptSymbols twoSymbols ds).map Prod.fst = [1, 2] := by
    rw [keys_keptSymbols, firstSymbols, hids, hlen]
    decide
  obtain ⟨S', hadd', hrec, -⟩ :=
    addPackets_sent repetitionHost hsmall fun d hd => xmitFile_sent hsmall (hsent d hd)
  obtain rfl : initialSegment repetitionHost (0 % 65536) twoSymbols.length = S₀ :=
    ((segstateInit_eq_ok_iff (by omega)).mp hinit).2.symm
  obtain rfl := Except.ok.inj (hadd'.symm.trans hadd)
  obtain ⟨C', hC', hholds⟩ := hrec.block
  obtain rfl : C = C' := List.singleton_inj.mp (hC.symm.trans hC')
  have hK : segSymbols twoSymbols.length = 2 := by
    rw [hlen]
    decide
  have hret : exit.ret = true := by
    refine getData_repetition hholds (by omega) ?_ ?_ le_rfl ?_ hget
    · rw [hkeys, hK]
      decide
    · have hcount := congrArg List.length hkeys
      rw [List.length_map] at hcount
      rw [hcount, hK]
      exact le_rfl
    · exact le_rfl
  rw [hwrite, hout hret, hlen]
  rw [List.take_of_length_le (by rw [hlen]; decide)]
  rfl

end RqRoute
