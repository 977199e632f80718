import RqRoute.Library.Lines
import RqRoute.Model.PacketHeader
import RqRoute.Model.ParamDeriv
import RqRoute.Model.RqMemBlocks

/-! # The sender

`sender.c`: a file is cut into source symbols, sent, and followed by the repair symbols
that the codec computes from them. Whatever was sent stays sent when the transmission
stops early. -/

namespace RqRoute

open Checked Memory Text

/-- Why a transmission stops: an assertion, or `return false`. -/
inductive Stop where
  | fault (f : Fault)
  | failed
deriving DecidableEq, Repr

/-- A computation that sends datagrams: those sent, and how it ended. -/
structure Xmit (α : Type) where
  sent : List Datagram
  result : Except Stop α

namespace Xmit

variable {α β : Type}

protected def pure (a : α) : Xmit α := { sent := [], result := .ok a }

protected def bind (x : Xmit α) (f : α → Xmit β) : Xmit β :=
  match x.result with
  | .error e => { sent := x.sent, result := .error e }
  | .ok a => { sent := x.sent ++ (f a).sent, result := (f a).result }

instance : Monad Xmit where
  pure := Xmit.pure
  bind := Xmit.bind

/-- `udp_sendmsg`. -/
def send (d : Datagram) : Xmit Unit := { sent := [d], result := .ok () }

/-- `return false`. -/
def failed : Xmit α := { sent := [], result := .error .failed }

/-- A computation that sends nothing. -/
def lift (x : Except Fault α) : Xmit α :=
  { sent := [], result := x.mapError .fault }

/-- The macro `RUN_NOFAIL` around a call with result code `rc`. -/
def runNofail (rc : ℤ) (a : α) : Xmit α := if rc < 0 then failed else Xmit.pure a

end Xmit

open Xmit

/-- `file` holds the contents of the file, `none` when it cannot be opened. -/
def getFileSize (file : Option (List UInt8)) : ℤ :=
  match file with
  | none => -1
  | some content => toInt content.length

/-- The sizes the codec asks for. -/
structure XmitSizes where
  interWorkSize : ℕ
  interProgSize : ℕ
  interSymNum : ℕ
  outWorkSize : ℕ
  outProgSize : ℕ

/-- The memory of `xmit_file`, with what `fread` has not read yet. -/
structure XmitMem (M : Type) where
  interWork : M
  interProg : M
  interBlock : Bytes
  outWork : M
  outProg : M
  srcBlock : Buffer UInt8
  rest : List UInt8

variable {M : Type}

/-- The memory sizes, all zero when no repair symbols are wanted. -/
def xmitSizes (host : Host M) (P : CodingParams) (nExtra : ℤ) : Xmit XmitSizes := do
  if nExtra > 0 then
    let inter := host.interGetMemSizes P.K_large nExtra
    Xmit.runNofail inter.1 ()
    let out := host.outGetMemSizes nExtra
    Xmit.runNofail out.1 ()
    return { interWorkSize := inter.2.1, interProgSize := inter.2.2.1
             interSymNum := inter.2.2.2
             outWorkSize := out.2.1, outProgSize := out.2.2 }
  else
    return { interWorkSize := 0, interProgSize := 0, interSymNum := 0
             outWorkSize := 0, outProgSize := 0 }

/-- The header of symbol `j`; the file number is cut to the 16 bits of its field. -/
def xmitHeader (ens_id : UInt16) (P : CodingParams) (fsiz file_nbr : ℤ) (j : ℕ) : RouteHeader :=
  { ens_id
    toi := UInt16.ofNat (file_nbr % 65536).toNat
    payload_id := UInt32.ofNat (j * P.T.toNat)
    tos := UInt32.ofNat fsiz.toNat }

/-- `payload_maxsz`. -/
def payloadMaxsz : ℕ := sizeofPacketbuf - sizeofRouteHeader

/-- Copy a payload into the packet buffer and send it. -/
def xmitSymbol (header : RouteHeader) (T : ℕ) (srcBlock : Buffer UInt8) (j payload_size : ℕ) :
    Xmit Unit := do
  if payload_size > payloadMaxsz then failed
  else
    let payload ← Xmit.lift (orElse (srcBlock.read? (T * j) payload_size) .outOfBounds)
    send { header, payload }

/-- The size of the payload of source symbol `j`, of which the last one may be shorter. -/
def sourcePayloadSize (T sz_read j : ℕ) : ℕ :=
  if sizeSub sz_read (T * j) < T then sizeSub sz_read (T * j) else T

/-- Read the source block, padding its last symbol with zeros. -/
def readBlock (P : CodingParams) (K cb : ℕ) (m : XmitMem M) : Except Fault (ℕ × XmitMem M) := do
  let T := P.T.toNat
  let data := m.rest.take (T * K)
  let srcBlock ← orElse (m.srcBlock.write? 0 data) .outOfBounds
  let sz_read := data.length
  let rest := m.rest.drop (T * K)
  if sz_read < T * K then
    check ((cb : ℤ) = P.n_cb - 1) .xmitLastBlock
    check (T * (K - 1) < sz_read) .xmitLastSymbol
    let srcBlock ← orElse (srcBlock.write? sz_read (List.replicate (T * K - sz_read) 0))
      .outOfBounds
    return (sz_read, { m with srcBlock, rest })
  else return (sz_read, { m with srcBlock, rest })

/-- Generate the programs for code blocks of `K` symbols. -/
def repairPrograms (host : Host M) (sizes : XmitSizes) (K : ℕ) (nExtra : ℤ) (m : XmitMem M) :
    Xmit (XmitMem M) := do
  let r := host.interInit K 0 m.interWork sizes.interWorkSize
  let m ← Xmit.runNofail r.1 { m with interWork := r.2 }
  let r := host.interAddIds m.interWork 0 K
  let m ← Xmit.runNofail r.1 { m with interWork := r.2 }
  let r := host.interCompile m.interWork m.interProg sizes.interProgSize
  let m ← Xmit.runNofail r.1 { m with interWork := r.2.1, interProg := r.2.2 }
  let r := host.outInit K m.outWork sizes.outWorkSize
  let m ← Xmit.runNofail r.1 { m with outWork := r.2 }
  let r := host.outAddIds m.outWork K nExtra
  let m ← Xmit.runNofail r.1 { m with outWork := r.2 }
  let r := host.outCompile m.outWork m.outProg sizes.outProgSize
  Xmit.runNofail r.1 { m with outWork := r.2.1, outProg := r.2.2 }

/-- Compute the repair symbols, into the memory of the source block. -/
def repairSymbols (host : Host M) (sizes : XmitSizes) (P : CodingParams) (m : XmitMem M) :
    Xmit (XmitMem M) := do
  let T := P.T.toNat
  let r := host.interExecute m.interProg T m.srcBlock.cell m.srcBlock.size
    m.interBlock (sizeMul T sizes.interSymNum)
  let m ← Xmit.runNofail r.1 { m with interBlock := r.2 }
  let r := host.outExecute m.outProg T m.interBlock m.srcBlock.cell m.srcBlock.size
  Xmit.runNofail r.1 { m with srcBlock.cell := r.2 }

/-- Send one code block. -/
def xmitBlock (host : Host M) (sizes : XmitSizes) (P : CodingParams)
    (fsiz file_nbr nExtra : ℤ) (m : XmitMem M) (cb : ℕ) : Xmit (XmitMem M) := do
  let T := P.T.toNat
  let K := (P.K_large - if (cb : ℤ) ≥ P.n_large then 1 else 0).toNat
  let (sz_read, m) ← Xmit.lift (readBlock P K cb m)
  (List.range K).forM fun j =>
    xmitSymbol (xmitHeader routeEnsIdSource P fsiz file_nbr j) T m.srcBlock j
      (sourcePayloadSize T sz_read j)
  if nExtra > 0 then
    let m ← if cb = 0 ∨ (cb : ℤ) = P.n_large then repairPrograms host sizes K nExtra m
      else Xmit.pure m
    let m ← repairSymbols host sizes P m
    (List.range nExtra.toNat).forM fun j =>
      xmitSymbol (xmitHeader routeEnsIdRepair P fsiz file_nbr j) T m.srcBlock j T
    return m
  else return m

/-- The transmission of a file whose size was found to be `fsiz`. The number of repair
symbols, `ceil(K_large * overhead)`, is an argument. -/
def xmitContent (host : Host M) (content : List UInt8) (fsiz file_nbr nExtra : ℤ) :
    Xmit Unit := do
  let P ← Xmit.lift (paramDeriv fsiz)
  let sizes ← xmitSizes host P nExtra
  let srcBlockSize := P.T * max P.K_large nExtra
  Xmit.lift (check (FitsInt srcBlockSize) .intOverflow)
  let m : XmitMem M := {
    interWork := host.freshWork, interProg := host.freshWork, interBlock := host.freshByte
    outWork := host.freshWork, outProg := host.freshWork
    srcBlock := { size := srcBlockSize.toNat, cell := host.freshByte }
    rest := content }
  let _ ← (List.range P.n_cb.toNat).foldlM (xmitBlock host sizes P fsiz file_nbr nExtra) m
  return ()

/-- The result is `true` when the transmission ran to its end. -/
def xmitFile (host : Host M) (file : Option (List UInt8)) (file_nbr nExtra : ℤ) : Xmit Unit :=
  let fsiz := getFileSize file
  if fsiz < 0 then failed
  else if fsiz = 0 then failed
  else xmitContent host (file.getD []) fsiz file_nbr nExtra

/-- The transmission of the file at a path, `files` being the file system and `nExtra` the number
of repair symbols for each file, which the overhead at that time gives. -/
def xmitNamed (host : Host M) (files : Str → Option (List UInt8)) (nExtra : ℤ → ℤ)
    (filename : Str) (file_nbr : ℤ) : Xmit Unit :=
  xmitFile host (files filename) file_nbr (nExtra file_nbr)

/-- `len_pbuf`. -/
def lenPbuf : ℕ := 40

end RqRoute
