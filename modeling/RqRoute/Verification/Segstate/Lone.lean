import RqRoute.Verification.Codeblockstate.Stale
import RqRoute.Verification.Segstate.Output

/-! # A segment of its own

The output of a segment is a function of the datagrams that it was fed. Neither the work
memory it borrows nor what an allocation finds in it matters. -/

namespace RqRoute

open Checked Memory Dedup

variable {M : Type}

/-- The datagrams as `segstate_add_packet` takes them. -/
def packetsOf (ds : List Datagram) : List (RouteHeader × List UInt8) :=
  ds.map fun d => (d.header, d.payload)

@[simp] theorem packetsOf_append (ds es : List Datagram) :
    packetsOf (ds ++ es) = packetsOf ds ++ packetsOf es := List.map_append

/-- A segment with work memory of its own: it is fed `ds`, the first of them telling its
length, and then written to `fd` in pieces of at most `ws[i]` bytes. -/
def loneOutput (host : Host M) (file_nbr : ℤ) (ds : List Datagram) (fd : ℤ) (ws : List ℕ) :
    Except Fault (List UInt8 × Bool) := do
  let first ← orElse ds.head? .outOfBounds
  let S ← segstateInit host file_nbr first.header.tos.toNat
  let S ← addPackets S (packetsOf ds)
  let m ← segstatePrepareOutput host (segstateReadyForWrite S) fd (.zero host)
  segstateWriteAll host m ws

/-- A segment of its own that is fed `ds` writes `out`, however the writes cut it. -/
def LoneOutput (host : Host M) (file_nbr : ℤ) (ds : List Datagram) (out : List UInt8) : Prop :=
  ∀ (fd : ℕ) ws, loneOutput host file_nbr ds fd ws =
    .ok (out.take ws.sum, decide (out.length ≤ ws.sum))

/-- The segment was fed `ds`. -/
structure Segstate.Fed (S : Segstate) (file_nbr : ℤ) (file_len : ℕ) (ds : List Datagram) :
    Prop where
  first : ds.head?.map (fun d => d.header.tos.toNat) = some file_len
  packets : ∀ p ∈ packetsOf ds, PacketFor file_nbr file_len p
  receives : S.Receives file_nbr file_len
    (retainAll (segSymbols file_len + 30) ((packetsOf ds).map (packetSymbol (segSymbols file_len))))
  out_fd_eq : S.out_fd = -1

theorem Segstate.Receives.readyForWrite {S : Segstate} {file_nbr : ℤ} {file_len : ℕ}
    {kept : List (ℤ × List UInt8)} (h : S.Receives file_nbr file_len kept) :
    (segstateReadyForWrite S).Receives file_nbr file_len kept :=
  ⟨h.small, h.file_nbr_eq, h.file_len_eq, h.P_eq, h.block⟩

theorem Segstate.Fed.readyForWrite {S : Segstate} {file_nbr : ℤ} {file_len : ℕ}
    {ds : List Datagram} (h : S.Fed file_nbr file_len ds) :
    (segstateReadyForWrite S).Fed file_nbr file_len ds :=
  ⟨h.first, h.packets, h.receives.readyForWrite, h.out_fd_eq⟩

/-- One more datagram. -/
theorem Segstate.Fed.addPacket {S S' : Segstate} {file_nbr : ℤ} {file_len : ℕ}
    {ds : List Datagram} (h : S.Fed file_nbr file_len ds) {d : Datagram}
    (hadd : segstateAddPacket S d.header d.payload = .ok S') :
    S'.Fed file_nbr file_len (ds ++ [d]) := by
  obtain ⟨hmode, hp⟩ := h.receives.of_addPacket (p := (d.header, d.payload)) hadd
  obtain ⟨S₁, hadd₁, hrec, -, hfd⟩ := h.receives.addPacket hmode hp
  obtain rfl : S' = S₁ := Except.ok.inj (hadd.symm.trans hadd₁)
  refine ⟨?_, ?_, ?_, hfd.trans h.out_fd_eq⟩
  · rw [List.head?_append]
    obtain ⟨e, he, hlen⟩ := Option.map_eq_some_iff.mp h.first
    rw [he, Option.some_or, Option.map_some, hlen]
  · intro p hmem
    rw [packetsOf_append] at hmem
    rcases List.mem_append.mp hmem with hold | hnew
    · exact h.packets p hold
    · obtain rfl := List.mem_singleton.mp hnew
      exact hp
  · rw [packetsOf_append, List.map_append]
    change S'.Receives _ _ (retainAll _ (_ ++ [packetSymbol _ (d.header, d.payload)]))
    rw [retainAll_append_singleton]
    exact hrec

/-- The first datagram. -/
theorem fed_singleton {host : Host M} {file_nbr : ℤ} {d : Datagram} {S : Segstate}
    (hsmall : SmallFile d.header.tos.toNat)
    (hadd : segstateAddPacket (initialSegment host file_nbr d.header.tos.toNat) d.header
      d.payload = .ok S) :
    S.Fed file_nbr d.header.tos.toNat [d] := by
  have hinit := receives_initialSegment host file_nbr hsmall
  obtain ⟨hmode, hp⟩ := hinit.of_addPacket (p := (d.header, d.payload)) hadd
  obtain ⟨S₁, hadd₁, hrec, -, hfd⟩ := hinit.addPacket hmode hp
  obtain rfl := Except.ok.inj (hadd₁.symm.trans hadd)
  refine ⟨rfl, ?_, hrec, hfd⟩
  intro p hmem
  obtain rfl := List.mem_singleton.mp hmem
  exact hp

/-- What is going to be written once the output of a segment has been prepared is what a
segment of its own writes that was fed the same datagrams. -/
theorem Segstate.Fed.prepareOutput {S : Segstate} {file_nbr : ℤ} {file_len : ℕ}
    {ds : List Datagram} (h : S.Fed file_nbr file_len ds) {host host' : Host M}
    (codec : StaleFree host.toRqApi) (hsame : host'.toRqApi = host.toRqApi) {fd : ℕ}
    {codec_mem : RqMemBlocks M} {m : SegMem M}
    (hprep : segstatePrepareOutput host S fd codec_mem = .ok m) :
    m.S.Writes file_nbr file_len 0 ∧
      LoneOutput host' file_nbr ds (m.S.out_cb_buf.slice 0 file_len) := by
  have hsmall := h.receives.small
  obtain ⟨C, exit, m₁, S₁, -, hholds, hget, hspec, hprep₁, hwrites, -, hbuf⟩ :=
    h.receives.prepareOutput h.out_fd_eq host fd codec_mem
  obtain rfl := Except.ok.inj (hprep₁.symm.trans hprep)
  refine ⟨hwrites, fun fd' ws => ?_⟩
  obtain ⟨first, hfirst, htos⟩ := Option.map_eq_some_iff.mp h.first
  have hinit : segstateInit host' file_nbr first.header.tos.toNat = .ok _ :=
    (segstateInit_eq_ok_iff first.header.tos.toNat_lt).mpr ⟨htos ▸ hsmall, rfl⟩
  rw [htos] at hinit
  obtain ⟨T, hadd, hrec, -, hclosed⟩ :=
    addPackets_receives host' file_nbr hsmall (packetsOf ds) h.packets
  obtain ⟨C', exit', m₂, T₁, -, hholds', hget', hspec', hprep', hwrites', hfd', hbuf'⟩ :=
    hrec.readyForWrite.prepareOutput hclosed host' fd' (.zero host')
  have hopen : T₁.out_fd ≠ -1 := by
    rw [hfd']
    omega
  -- both segments decode the same stored symbols
  obtain ⟨-, hout⟩ := getData_determined codec hsame hholds hholds' le_rfl le_rfl le_rfl hget hget'
  have hle : file_len ≤ 1024 * segSymbols file_len := by
    have := hsmall.symbols.2.2.2.2
    omega
  have hslice : T₁.out_cb_buf.slice 0 file_len = S₁.out_cb_buf.slice 0 file_len := by
    rw [hbuf, hbuf', ← Buffer.take_slice _ _ hle, ← Buffer.take_slice _ _ hle]
    exact congrArg _ hout.symm
  rw [loneOutput, hfirst, orElse_some, ok_bind, htos, hinit, ok_bind, hadd, ok_bind, hprep',
    ok_bind, hwrites'.writeAll_start hopen, hslice, Buffer.length_slice]

end RqRoute
