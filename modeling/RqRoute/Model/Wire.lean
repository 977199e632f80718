import RqRoute.Library.Bytes
import RqRoute.Model.Receiver

/-! # The packet buffer

Both programs lay `route_header` over a `char packetbuf[2048]`. Nothing converts the fields, so
they stand there in the byte order of the host, at the offsets 0, 2, 4 and 8. -/

namespace RqRoute

def RouteHeader.bytes (e : ByteOrder) (header : RouteHeader) : List UInt8 :=
  e.store 2 header.ens_id.toNat ++ (e.store 2 header.toi.toNat ++
    (e.store 4 header.payload_id.toNat ++ e.store 4 header.tos.toNat))

def RouteHeader.ofBytes (e : ByteOrder) (packetbuf : List UInt8) : RouteHeader where
  ens_id := .ofNat (e.load (packetbuf.take 2))
  toi := .ofNat (e.load ((packetbuf.drop 2).take 2))
  payload_id := .ofNat (e.load ((packetbuf.drop 4).take 4))
  tos := .ofNat (e.load ((packetbuf.drop 8).take 4))

/-- The `xmit_sz` bytes that `udp_sendmsg` hands to the network. -/
def Datagram.bytes (e : ByteOrder) (d : Datagram) : List UInt8 := d.header.bytes e ++ d.payload

/-- `recv` into the packet buffer, which cuts what does not fit. -/
def recvBytes (e : ByteOrder) (bytes : List UInt8) : Recv :=
  let packetbuf := bytes.take sizeofPacketbuf
  if h : packetbuf.length < sizeofRouteHeader then .runt ⟨packetbuf.length, h⟩
  else .packet
    { header := .ofBytes e packetbuf, payload := packetbuf.drop sizeofRouteHeader }

/-- What the system calls of one pass report, with the bytes that `recv` takes; `none` where it
fails. -/
structure ByteInput where
  sel : Pselect
  received : Option (List UInt8)
  opened : Option ℕ
  taken : Option ℕ
deriving DecidableEq, Repr

/-- The same pass, with the packet that the buffer holds. -/
def ByteInput.input (e : ByteOrder) (i : ByteInput) : Input where
  sel := i.sel
  recv := i.received.elim .error (recvBytes e)
  opened := i.opened
  taken := i.taken

/-- The loop on a network of bytes. -/
def Receiver.ByteStep (e : ByteOrder) (L : SegmentList) (host : Host M) (R : Receiver M)
    (i : ByteInput) (R' : Receiver M) (es : List Event) : Prop :=
  R.Step L host (i.input e) R' es

end RqRoute
