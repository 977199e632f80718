import RqRoute.Library.Transition
import RqRoute.Model.Wire
import RqRoute.Verification.Sender.Emission

/-! # The packet buffer as bytes

The layout of `route_header` read back, on hosts of the same byte order and of opposite ones. -/

namespace RqRoute

open Transition

variable {M : Type}

/-! ## The header -/

@[simp] theorem RouteHeader.length_bytes (e : ByteOrder) (header : RouteHeader) :
    (header.bytes e).length = sizeofRouteHeader := by
  simp [RouteHeader.bytes, sizeofRouteHeader]

@[simp] theorem Datagram.length_bytes (e : ByteOrder) (d : Datagram) :
    (d.bytes e).length = sizeofRouteHeader + d.payload.length := by
  simp [Datagram.bytes]

/-- The header's fields, wherever they are read. -/
theorem RouteHeader.ofBytes_bytes_append (e e' : ByteOrder) (header : RouteHeader)
    (rest : List UInt8) : RouteHeader.ofBytes e' (header.bytes e ++ rest) =
      { ens_id := .ofNat (e'.load (e.store 2 header.ens_id.toNat))
        toi := .ofNat (e'.load (e.store 2 header.toi.toNat))
        payload_id := .ofNat (e'.load (e.store 4 header.payload_id.toNat))
        tos := .ofNat (e'.load (e.store 4 header.tos.toNat)) } := by
  have hdrop : ∀ {w n k : ℕ}, w ≤ k → (e.store w n).drop k = [] := fun h =>
    List.drop_eq_nil_of_le (by simpa using h)
  simp [RouteHeader.ofBytes, RouteHeader.bytes, List.drop_append, hdrop]

theorem load_store_uint16 (e : ByteOrder) (n : UInt16) :
    UInt16.ofNat (e.load (e.store 2 n.toNat)) = n := by
  rw [e.load_store, Nat.mod_eq_of_lt (by simpa using n.toNat_lt), UInt16.ofNat_toNat]

theorem load_store_uint32 (e : ByteOrder) (n : UInt32) :
    UInt32.ofNat (e.load (e.store 4 n.toNat)) = n := by
  rw [e.load_store, Nat.mod_eq_of_lt (by simpa using n.toNat_lt), UInt32.ofNat_toNat]

theorem RouteHeader.ofBytes_append (e : ByteOrder) (header : RouteHeader) (rest : List UInt8) :
    RouteHeader.ofBytes e (header.bytes e ++ rest) = header := by
  rw [RouteHeader.ofBytes_bytes_append, load_store_uint16, load_store_uint16, load_store_uint32,
    load_store_uint32]

theorem store_load_uint16 (e : ByteOrder) {bytes : List UInt8} (h : bytes.length = 2) :
    e.store 2 (UInt16.ofNat (e.load bytes)).toNat = bytes := by
  have hlt := e.load_lt bytes
  rw [h] at hlt
  rw [UInt16.toNat_ofNat_of_lt' hlt, e.store_load h]

theorem store_load_uint32 (e : ByteOrder) {bytes : List UInt8} (h : bytes.length = 4) :
    e.store 4 (UInt32.ofNat (e.load bytes)).toNat = bytes := by
  have hlt := e.load_lt bytes
  rw [h] at hlt
  rw [UInt32.toNat_ofNat_of_lt' hlt, e.store_load h]

/-- The four fields lie next to each other and fill the header. -/
theorem RouteHeader.bytes_ofBytes (e : ByteOrder) {packetbuf : List UInt8}
    (h : sizeofRouteHeader ≤ packetbuf.length) :
    (RouteHeader.ofBytes e packetbuf).bytes e = packetbuf.take sizeofRouteHeader := by
  rw [sizeofRouteHeader] at h ⊢
  have hsplit : packetbuf.take 12 = packetbuf.take 2 ++ ((packetbuf.drop 2).take 2 ++
      ((packetbuf.drop 4).take 4 ++ (packetbuf.drop 8).take 4)) := by
    rw [show 12 = 2 + (2 + (4 + 4)) from rfl, List.take_add, List.take_add, List.take_add,
      List.drop_drop, List.drop_drop]
  rw [RouteHeader.bytes, RouteHeader.ofBytes, hsplit]
  rw [store_load_uint16 e (by simp; omega), store_load_uint16 e (by simp; omega),
    store_load_uint32 e (by simp; omega), store_load_uint32 e (by simp; omega)]

/-! ## The packet -/

theorem RouteHeader.bytes_inj (e : ByteOrder) {h h' : RouteHeader} {rest rest' : List UInt8}
    (heq : h.bytes e ++ rest = h'.bytes e ++ rest') : h = h' ∧ rest = rest' := by
  have hlen : (h.bytes e).length = (h'.bytes e).length := by simp
  obtain ⟨hheader, hrest⟩ := List.append_inj heq hlen
  have hofBytes := congrArg (RouteHeader.ofBytes e) heq
  rw [RouteHeader.ofBytes_append, RouteHeader.ofBytes_append] at hofBytes
  exact ⟨hofBytes, hrest⟩

/-- What arrives of a packet, whichever byte order the receiver has. -/
theorem recvBytes_bytes (e e' : ByteOrder) (d : Datagram) :
    recvBytes e' (d.bytes e) = .packet
      { header := RouteHeader.ofBytes e' (d.header.bytes e)
        payload := (cutDatagram d).payload } := by
  have htake : (d.bytes e).take sizeofPacketbuf =
      d.header.bytes e ++ (cutDatagram d).payload := by
    rw [Datagram.bytes, List.take_append, List.take_of_length_le (by simp [sizeofPacketbuf,
      sizeofRouteHeader]), RouteHeader.length_bytes, cutDatagram]
  have hlong : ¬((d.bytes e).take sizeofPacketbuf).length < sizeofRouteHeader := by
    rw [htake]
    simp
  have hdrop : (d.header.bytes e ++ (cutDatagram d).payload).drop sizeofRouteHeader =
      (cutDatagram d).payload := List.drop_left' (RouteHeader.length_bytes ..)
  have hheader : RouteHeader.ofBytes e' (d.header.bytes e ++ (cutDatagram d).payload) =
      RouteHeader.ofBytes e' (d.header.bytes e) := by
    have hempty := RouteHeader.ofBytes_bytes_append e e' d.header []
    rw [List.append_nil] at hempty
    rw [RouteHeader.ofBytes_bytes_append, hempty]
  rw [recvBytes, dif_neg hlong]
  simp only [htake, hdrop, hheader]

theorem recvBytes_eq_runt (e : ByteOrder) (bytes : List UInt8) :
    (∃ n, recvBytes e bytes = .runt n) ↔ bytes.length < sizeofRouteHeader := by
  have hlength : (bytes.take sizeofPacketbuf).length < sizeofRouteHeader ↔
      bytes.length < sizeofRouteHeader := by
    rw [List.length_take, sizeofPacketbuf, sizeofRouteHeader]
    omega
  rw [← hlength, recvBytes]
  by_cases hshort : (bytes.take sizeofPacketbuf).length < sizeofRouteHeader
  · rw [dif_pos hshort]
    exact ⟨fun _ => hshort, fun _ => ⟨_, rfl⟩⟩
  · rw [dif_neg hshort]
    constructor
    · rintro ⟨n, h⟩
      cases h
    · intro h
      exact absurd h hshort

theorem recvBytes_eq_packet (e : ByteOrder) (bytes : List UInt8) (d : Datagram) :
    recvBytes e bytes = .packet d ↔
      sizeofRouteHeader ≤ bytes.length ∧ d.bytes e = bytes.take sizeofPacketbuf := by
  have hlength : (bytes.take sizeofPacketbuf).length < sizeofRouteHeader ↔
      bytes.length < sizeofRouteHeader := by
    rw [List.length_take, sizeofPacketbuf, sizeofRouteHeader]
    omega
  by_cases hshort : bytes.length < sizeofRouteHeader
  · rw [recvBytes, dif_pos (hlength.2 hshort)]
    simp [hshort]
  · have hback : (RouteHeader.ofBytes e (bytes.take sizeofPacketbuf)).bytes e ++
        (bytes.take sizeofPacketbuf).drop sizeofRouteHeader = bytes.take sizeofPacketbuf := by
      rw [RouteHeader.bytes_ofBytes e (by omega), List.take_append_drop]
    rw [recvBytes, dif_neg (by omega)]
    constructor
    · intro h
      obtain rfl := Recv.packet.inj h
      exact ⟨by omega, hback⟩
    · rintro ⟨-, h⟩
      rw [← hback] at h
      obtain ⟨hheader, hpayload⟩ := RouteHeader.bytes_inj e h
      rw [← hheader, ← hpayload]

theorem recvBytes_of_bytes (e : ByteOrder) (d : Datagram) :
    recvBytes e (d.bytes e) = .packet (cutDatagram d) := by
  have hheader := RouteHeader.ofBytes_append e d.header []
  rw [List.append_nil] at hheader
  rw [recvBytes_bytes, hheader, cutDatagram]

/-- The header that a host of the opposite byte order reads. -/
def RouteHeader.reversed (header : RouteHeader) : RouteHeader where
  ens_id := .ofNat (ofLowBytes (lowBytes 2 header.ens_id.toNat).reverse)
  toi := .ofNat (ofLowBytes (lowBytes 2 header.toi.toNat).reverse)
  payload_id := .ofNat (ofLowBytes (lowBytes 4 header.payload_id.toNat).reverse)
  tos := .ofNat (ofLowBytes (lowBytes 4 header.tos.toNat).reverse)

theorem RouteHeader.opposite_ofBytes (e : ByteOrder) (header : RouteHeader) :
    RouteHeader.ofBytes e.opposite (header.bytes e) = header.reversed := by
  have hread := RouteHeader.ofBytes_bytes_append e e.opposite header []
  rw [List.append_nil] at hread
  rw [hread, RouteHeader.reversed]
  simp only [ByteOrder.opposite_load_store]

/-- What `recv` stores is the packet that was sent, cut to the buffer; a datagram is none exactly
when it is shorter than the header, and holds one packet otherwise. Between hosts of opposite
byte orders every field arrives with its bytes reversed. -/
theorem wire_round_trip (e : ByteOrder) :
    (∀ d, recvBytes e (d.bytes e) = .packet (cutDatagram d)) ∧
    (∀ bytes, (∃ n, recvBytes e bytes = .runt n) ↔ bytes.length < sizeofRouteHeader) ∧
    (∀ bytes d, recvBytes e bytes = .packet d ↔
      sizeofRouteHeader ≤ bytes.length ∧ d.bytes e = bytes.take sizeofPacketbuf) ∧
    (∀ d, recvBytes e.opposite (d.bytes e) =
      .packet { cutDatagram d with header := d.header.reversed }) := by
  refine ⟨recvBytes_of_bytes e, recvBytes_eq_runt e, recvBytes_eq_packet e, fun d => ?_⟩
  rw [recvBytes_bytes, RouteHeader.opposite_ofBytes]

/-! ## The loop on bytes -/

theorem cutDatagram_cutDatagram (d : Datagram) : cutDatagram (cutDatagram d) = cutDatagram d := by
  simp [cutDatagram]

/-- The loop looks at a packet only after it was cut. -/
theorem loopPass_congr_recv (L : SegmentList) (host : Host M) (R : Receiver M) (i : Input)
    (d : Datagram) :
    loopPass L host R { i with recv := .packet (cutDatagram d) } =
      loopPass L host R { i with recv := .packet d } := by
  simp only [loopPass, cutDatagram_cutDatagram]

/-- Some bytes hold what `recv` reported. -/
theorem exists_recvBytes (e : ByteOrder) (L : SegmentList) (host : Host M) (R : Receiver M)
    (i : Input) : ∃ j : ByteInput, j.sel = i.sel ∧
      loopPass L host R (j.input e) = loopPass L host R i := by
  cases hrecv : i.recv with
  | error =>
      refine ⟨⟨i.sel, none, i.opened, i.taken⟩, rfl, ?_⟩
      simp only [ByteInput.input, Option.elim_none, ← hrecv]
  | runt n =>
      have hshort : (List.replicate n.val (0 : UInt8)).length < sizeofRouteHeader := by simp
      obtain ⟨m, hm⟩ := (recvBytes_eq_runt e _).2 hshort
      refine ⟨⟨i.sel, some (.replicate n 0), i.opened, i.taken⟩, rfl, ?_⟩
      simp only [ByteInput.input, Option.elim_some, hm, loopPass, hrecv]
  | packet d =>
      refine ⟨⟨i.sel, some (d.bytes e), i.opened, i.taken⟩, rfl, ?_⟩
      simp only [ByteInput.input, Option.elim_some, recvBytes_of_bytes]
      rw [loopPass_congr_recv L host R i d, ← hrecv]

/-- The loop on a network of bytes and the loop on packets do the same: on a host of either byte
order, they reach the same states with the same events. -/
theorem bytes_iff_packets (e : ByteOrder) (L : SegmentList) (host : Host M) (R₀ R : Receiver M)
    (es : List Event) :
    (∃ t, Run (Receiver.ByteStep e L host) R₀ t R ∧ events t = es) ↔
      ∃ t, Run (Receiver.Step L host) R₀ t R ∧ events t = es := by
  constructor
  · rintro ⟨t, hrun, rfl⟩
    have hstep : ∀ (R : Receiver M) i R' es c, R = c → R.ByteStep e L host i R' es →
        ∃ j c', Receiver.Step L host c j c' es ∧ R' = c' := by
      rintro R i R' es c rfl hs
      exact ⟨i.input e, R', hs, rfl⟩
    obtain ⟨u, c, hu, rfl, hevents⟩ := hrun.simulate hstep rfl
    exact ⟨u, hu, hevents⟩
  · rintro ⟨t, hrun, rfl⟩
    have hstep : ∀ (R : Receiver M) i R' es c, R = c → R.Step L host i R' es →
        ∃ j c', Receiver.ByteStep e L host c j c' es ∧ R' = c' := by
      rintro R i R' es c rfl ⟨hmay, hpass⟩
      obtain ⟨j, hsel, hj⟩ := exists_recvBytes e L host R i
      exact ⟨j, R', ⟨by rwa [ByteInput.input, hsel], by rwa [hj]⟩, rfl⟩
    obtain ⟨u, c, hu, rfl, hevents⟩ := hrun.simulate hstep rfl
    exact ⟨u, hu, hevents⟩

end RqRoute
