import Mathlib.Data.List.Basic

/-! # Packets

`packet_header.h`. A datagram is the header followed by the payload; its fields have the
widths the header gives them. -/

namespace RqRoute

def routeEnsIdSource : UInt16 := 0

def routeEnsIdRepair : UInt16 := 1

structure RouteHeader where
  ens_id : UInt16
  toi : UInt16
  payload_id : UInt32
  tos : UInt32
deriving DecidableEq, Repr

/-- `sizeof(route_header)`. -/
def sizeofRouteHeader : ℕ := 12

/-- `sizeof(packetbuf)`, the same 2048 bytes on both sides. -/
def sizeofPacketbuf : ℕ := 2048

structure Datagram where
  header : RouteHeader
  payload : List UInt8
deriving DecidableEq, Repr

end RqRoute
