import RqRoute.Model.Codeblockstate
import RqRoute.Model.PacketHeader
import RqRoute.Model.ParamDeriv

/-! # Segments

`segstate.c`: one segment while it is received and while it is written out. The codec
memory a segment borrows is passed to the functions that use it. -/

namespace RqRoute

open Checked Memory

inductive SegstateMode where
  | receiving
  | readyToWrite
  | writing
deriving DecidableEq, Repr

structure Segstate where
  file_nbr : ℤ
  file_len : ℕ
  mode : SegstateMode
  P : CodingParams
  cbstates : List Codeblockstate
  out_fd : ℤ
  out_cb : ℤ
  out_cb_buf : Buffer UInt8
  out_cb_buf_sz : ℕ
  out_cb_buf_offs : ℕ

/-- The null pointer, as an area without bytes. -/
def nullBuf : Buffer UInt8 := { size := 0, cell := fun _ => 0 }

/-- A slot of the zero-initialised array of segments. -/
def Segstate.zero : Segstate :=
  { file_nbr := 0, file_len := 0, mode := .receiving
    P := { T := 0, n_srcsym_tot := 0, n_cb := 0, K_large := 0, n_large := 0 }
    cbstates := [], out_fd := 0, out_cb := 0
    out_cb_buf := nullBuf, out_cb_buf_sz := 0, out_cb_buf_offs := 0 }

variable {M : Type}

def segstateInit (host : Host M) (file_nbr : ℤ) (file_len : ℕ) : Except Fault Segstate := do
  let P ← paramDeriv (toInt file_len)
  return {
    file_nbr, file_len, P
    cbstates :=
      List.replicate P.n_large.toNat (codeblockstateInit host P.K_large.toNat P.T.toNat) ++
      List.replicate (P.n_cb - P.n_large).toNat
        (codeblockstateInit host (P.K_large - 1).toNat P.T.toNat)
    mode := .receiving
    out_fd := -1, out_cb := -1
    out_cb_buf := nullBuf, out_cb_buf_sz := 0, out_cb_buf_offs := 0 }

def segstateFree (S : Segstate) : Segstate :=
  { S with out_cb_buf := nullBuf, cbstates := [] }

/-- The symbol id a packet carries: source symbols count from 0, repair symbols from
`K_large`. The sum is taken in `uint32_t` and stored in an `int32_t`. -/
def symbId (P : CodingParams) (header : RouteHeader) : ℤ :=
  if header.ens_id = routeEnsIdSource then toInt (header.payload_id.toNat / P.T)
  else toInt ((P.K_large + header.payload_id.toNat / P.T) % 2 ^ 32)

def segstateAddPacket (S : Segstate) (header : RouteHeader) (payload : List UInt8) :
    Except Fault Segstate := do
  check ((header.toi.toNat : ℤ) = S.file_nbr) .addPacketToi
  check (header.tos.toNat = S.file_len) .addPacketTos
  check (S.P.n_cb = 1) .addPacketBlocks
  check (0 ≤ header.payload_id.toNat) .addPacketPayloadId
  check (S.mode = .receiving) .addPacketMode
  let C ← orElse S.cbstates.head? .outOfBounds
  let C ← codeblockstateAddSym C (symbId S.P header) payload
  return { S with cbstates := C :: S.cbstates.tail }

/-- What a segment writes to: itself and the codec memory. -/
structure SegMem (M : Type) where
  S : Segstate
  codec_mem : RqMemBlocks M

def loadCbBuf (host : Host M) (m : SegMem M) : Except Fault (SegMem M) := do
  check (0 ≤ m.S.out_cb) .outOfBounds
  let C ← orElse m.S.cbstates[m.S.out_cb.toNat]? .outOfBounds
  -- the result of codeblockstate_get_data is not looked at
  let r ← codeblockstateGetData host C m.S.out_cb_buf_sz
    { codec_mem := m.codec_mem, data_out := m.S.out_cb_buf }
  return { S := { m.S with out_cb_buf := r.2.data_out }, codec_mem := r.2.codec_mem }

def segstateReadyForWrite (S : Segstate) : Segstate := { S with mode := .readyToWrite }

def segstateGetMode (S : Segstate) : SegstateMode := S.mode

def segstatePrepareOutput (host : Host M) (S : Segstate) (out_fd : ℤ)
    (codec_mem : RqMemBlocks M) : Except Fault (SegMem M) := do
  check (S.out_fd = -1) .prepareOutputFd
  let out_cb_buf_sz := (S.P.T * S.P.K_large).toNat
  loadCbBuf host {
    S := { S with
      mode := .writing
      out_fd
      out_cb := 0
      out_cb_buf_sz
      out_cb_buf := { size := out_cb_buf_sz, cell := host.freshByte }
      out_cb_buf_offs := 0 }
    codec_mem }

/-- The result of one `segstate_write_more` call: the value returned, the bytes that
`write` accepted, and the memory afterwards. -/
structure WriteMore (M : Type) where
  more : Bool
  written : List UInt8
  mem : SegMem M

/-- Padding of the current block; only the last one has any. -/
def padBytes (S : Segstate) : ℕ :=
  if S.out_cb = S.P.n_cb - 1 then
    sizeSub (sizeMul S.P.n_srcsym_tot.toNat S.P.T.toNat) S.file_len
  else 0

/-- Data size of the current block. -/
def cbSize (S : Segstate) : ℕ :=
  sizeSub (S.P.T * (S.P.K_large - if S.out_cb ≥ S.P.n_large then 1 else 0)).toNat (padBytes S)

/-- `taken` is what the descriptor does with the request: `none` is an error of `write`,
`some k` accepts at most `k` bytes. -/
def segstateWriteMore (host : Host M) (m : SegMem M) (taken : Option ℕ) :
    Except Fault (WriteMore M) := do
  let S := m.S
  check (S.out_fd ≠ -1) .writeMoreFd
  check (S.mode = .writing) .writeMoreMode
  if S.out_cb = S.P.n_cb then return { more := false, written := [], mem := m }
  else
    check (S.out_cb = S.P.n_cb - 1 → (padBytes S : ℤ) < S.P.T) .writeMorePad
    let cb_size := cbSize S
    check (S.out_cb_buf_offs < cb_size) .writeMoreOffs
    match taken with
    | none => return { more := false, written := [], mem := m }
    | some k =>
      let n_write := min k (cb_size - S.out_cb_buf_offs)
      let written ← orElse (S.out_cb_buf.read? S.out_cb_buf_offs n_write) .outOfBounds
      let offs := S.out_cb_buf_offs + n_write
      if offs = cb_size then
        let m := { m with S := { S with out_cb_buf_offs := 0, out_cb := S.out_cb + 1 } }
        if S.out_cb + 1 = S.P.n_cb then return { more := false, written, mem := m }
        else
          let m ← loadCbBuf host m
          return { more := true, written, mem := m }
      else
        return { more := true, written, mem := { m with S := { S with out_cb_buf_offs := offs } } }

end RqRoute
