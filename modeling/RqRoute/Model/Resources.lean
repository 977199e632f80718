import RqRoute.Library.Ownership
import RqRoute.Model.Receiver

/-! # What the receiver holds

The calls of `malloc`, `aligned_alloc`, `free`, `open`, `socket` and `close` of the receiver,
function by function, with the accesses to what they return. A block of memory is named by the
pointer that it is assigned to, an output descriptor by its number. Allocating always succeeds,
and what the codec does inside its memory is its own. Of a function that may leave early, the
accesses are all those that it can make. The descriptor `ready_fd` was opened by another
program. -/

namespace RqRoute

open Checked Ownership

/-- The blocks of `RqMemBlocks`. -/
inductive CodecBlock where
  | interWorkMem
  | interProgMem
  | interSymMem
  | outWorkMem
  | outProgMem
deriving DecidableEq, Repr

inductive Owner where
  | cbstates (idx : Fin segstateSetN)
  | esi (idx : Fin segstateSetN) (cb : ℕ)
  | hashEsi (idx : Fin segstateSetN) (cb : ℕ)
  | symsBuf (idx : Fin segstateSetN) (cb : ℕ)
  | outCbBuf (idx : Fin segstateSetN)
  | codec (block : CodecBlock)
  | descriptor (fd : ℤ)
  | socket
deriving DecidableEq, Repr

variable {M : Type}

/-! ## The codec memory -/

/-- The macro `alloc`. -/
def MemBlock.allocUses {C : Type} (b : MemBlock C) (block : CodecBlock) (nSize : ℕ) :
    List (Use Owner) :=
  if nSize > b.nSize then
    (if b.allocated ≠ 0 then [.release (.codec block)] else []) ++ [.acquire (.codec block)]
  else []

def rqMemBlocksIncludeCaseUses (host : Host M) (B : RqMemBlocks M)
    (nMaxK nMaxExtraIn nMaxOut : ℤ) (nMaxT : ℕ) : List (Use Owner) :=
  let inter := host.interGetMemSizes nMaxK nMaxExtraIn
  if inter.1 < 0 then []
  else
    let nInterSymMemSize := sizeMul nMaxT inter.2.2.2
    let out := host.outGetMemSizes nMaxOut
    if out.1 < 0 then []
    else
      B.interWorkMem.allocUses .interWorkMem inter.2.1 ++
      B.interProgMem.allocUses .interProgMem inter.2.2.1 ++
      B.interSymMem.allocUses .interSymMem nInterSymMemSize ++
      B.outWorkMem.allocUses .outWorkMem out.2.1 ++
      B.outProgMem.allocUses .outProgMem out.2.2

/-- The macro `xfree`. -/
def MemBlock.freeUses {C : Type} (b : MemBlock C) (block : CodecBlock) : List (Use Owner) :=
  if b.allocated ≠ 0 then [.release (.codec block)] else []

def rqMemBlocksFreeMemUses (B : RqMemBlocks M) : List (Use Owner) :=
  B.interWorkMem.freeUses .interWorkMem ++
  B.interProgMem.freeUses .interProgMem ++
  B.interSymMem.freeUses .interSymMem ++
  B.outWorkMem.freeUses .outWorkMem ++
  B.outProgMem.freeUses .outProgMem

/-! ## Code blocks -/

section
variable (idx : Fin segstateSetN) (cb : ℕ)

def codeblockstateInitUses : List (Use Owner) :=
  [.access (.cbstates idx), .acquire (.esi idx cb), .acquire (.hashEsi idx cb),
    .access (.hashEsi idx cb), .acquire (.symsBuf idx cb)]

def codeblockstateAddSymUses (C : Codeblockstate) (sym_id : ℤ) : List (Use Owner) :=
  .access (.cbstates idx) ::
    if C.n_esi ≥ C.n_esi_max then []
    else
      .access (.hashEsi idx cb) ::
        match hashHome C sym_id >>= probeHash C sym_id C.hash_esi_sz with
        | .ok (some _) => [.access (.esi idx cb), .access (.symsBuf idx cb)]
        | .ok none | .error _ => []

def codeblockstateGetDataUses (host : Host M) (C : Codeblockstate) (codec_mem : RqMemBlocks M) :
    List (Use Owner) :=
  [.access (.cbstates idx), .access (.outCbBuf idx)] ++
    (if C.n_src_esi ≥ C.K ∨ C.n_esi < C.K then []
    else rqMemBlocksIncludeCaseUses host codec_mem C.K (C.n_esi - C.K : ℤ) C.K C.T) ++
    [.access (.esi idx cb), .access (.symsBuf idx cb), .access (.outCbBuf idx)]

def codeblockstateFreeUses : List (Use Owner) :=
  [.access (.cbstates idx), .release (.symsBuf idx cb), .release (.hashEsi idx cb),
    .release (.esi idx cb)]

end

/-! ## Segments -/

section
variable (idx : Fin segstateSetN)

def segstateInitUses (P : CodingParams) : List (Use Owner) :=
  .acquire (.cbstates idx) :: (List.range P.n_cb.toNat).flatMap (codeblockstateInitUses idx)

def segstateFreeUses (S : Segstate) : List (Use Owner) :=
  (if S.out_cb_buf.size ≠ 0 then [.release (.outCbBuf idx)] else []) ++
  if S.cbstates ≠ [] then
    (List.range S.P.n_cb.toNat).flatMap (codeblockstateFreeUses idx) ++ [.release (.cbstates idx)]
  else []

def segstateAddPacketUses (S : Segstate) (header : RouteHeader) : List (Use Owner) :=
  match S.cbstates.head? with
  | some C => codeblockstateAddSymUses idx 0 C (symbId S.P header)
  | none => []

def loadCbBufUses (host : Host M) (m : SegMem M) : List (Use Owner) :=
  match m.S.cbstates[m.S.out_cb.toNat]? with
  | some C => codeblockstateGetDataUses idx m.S.out_cb.toNat host C m.codec_mem
  | none => []

def segstatePrepareOutputUses (host : Host M) (S : Segstate) (codec_mem : RqMemBlocks M) :
    List (Use Owner) :=
  .acquire (.outCbBuf idx) :: loadCbBufUses idx host { S := { S with out_cb := 0 }, codec_mem }

def segstateWriteMoreUses (host : Host M) (m : SegMem M) (taken : Option ℕ) : List (Use Owner) :=
  let S := m.S
  if S.out_cb = S.P.n_cb then []
  else
    [.access (.descriptor S.out_fd), .access (.outCbBuf idx)] ++
      match taken with
      | none => []
      | some k =>
        if S.out_cb_buf_offs + min k (cbSize S - S.out_cb_buf_offs) = cbSize S ∧
            S.out_cb + 1 ≠ S.P.n_cb then
          loadCbBufUses idx host { m with S := { S with out_cb := S.out_cb + 1 } }
        else []

end

/-! ## Tasks -/

def taskStartWriteUses (host : Host M) (SS : Segstateset) (codec_mem : RqMemBlocks M)
    (opened : Option ℕ) : List (Use Owner) :=
  match segstatesetGet SS (segstatesetGetMinFileNbr SS) with
  | (status, some idx) =>
    if status = .uninitialized ∨ segstateGetMode (SS.states idx) ≠ .readyToWrite then []
    else
      match opened with
      | none => []
      | some fd =>
        [.acquire (.descriptor fd), .access (.descriptor fd)] ++
          if status = .ok then segstatePrepareOutputUses idx host (SS.states idx) codec_mem
          else if status = .uninitialized then [.release (.descriptor fd)]
          else []
  | (_, none) => []

def taskWriteUses (host : Host M) (SS : Segstateset) (out_fd : ℤ) (codec_mem : RqMemBlocks M)
    (taken opened : Option ℕ) : Except Fault (List (Use Owner)) := do
  let (status, slot) := segstatesetGet SS (segstatesetGetMinFileNbr SS)
  check (status = .ok) .taskWriteStatus
  let idx ← orElse slot .nullPointer
  let m : SegMem M := { S := SS.states idx, codec_mem }
  let w ← segstateWriteMore host m taken
  if w.more then return segstateWriteMoreUses idx host m taken
  else
    let SS := segstatesetIncMinFileNbr (SS.setSlot idx (segstateFree w.mem.S))
    return segstateWriteMoreUses idx host m taken ++ segstateFreeUses idx w.mem.S ++
      [.release (.descriptor out_fd)] ++ taskStartWriteUses host SS w.mem.codec_mem opened

def initSegmentUses (host : Host M) (R : Receiver M) (idx : Fin segstateSetN)
    (header : RouteHeader) (opened : Option ℕ) : Except Fault (List (Use Owner)) := do
  let file_nbr : ℤ := header.toi.toNat
  let S ← segstateInit host file_nbr header.tos.toNat
  let (_, SS) ← segstatesetMarkInitialized (R.SS.setSlot idx S) file_nbr
  let started :=
    if file_nbr > R.recv_file_nbr ∧ R.write_ok ∧ R.out_fd = -1 then
      taskStartWriteUses host (segstatesetMarkReadytowrite SS file_nbr) R.codec_mem opened
    else []
  return segstateInitUses idx S.P ++ started

def receivePacketUses (host : Host M) (R : Receiver M) (d : Datagram) (opened : Option ℕ) :
    Except Fault (List (Use Owner)) := do
  match segstatesetGet R.SS d.header.toi.toNat with
  | (.ok, slot) =>
    let idx ← orElse slot .nullPointer
    return segstateAddPacketUses idx (R.SS.states idx) d.header
  | (.uninitialized, slot) =>
    let idx ← orElse slot .nullPointer
    let entered ← initSegmentUses host R idx d.header opened
    let (R, _) ← initSegment host R idx d.header opened
    return entered ++ segstateAddPacketUses idx (R.SS.states idx) d.header
  | (.belowMin, _) | (.aboveMax, _) => return []

/-- What `receive_write` does before its loop. -/
def bindSocketUses : List (Use Owner) := [.acquire .socket, .access .socket]

/-- The task of a pass. -/
def nexttaskUses (host : Host M) (R : Receiver M) (i : Input) :
    Except Fault (List (Use Owner)) := do
  match ← nexttask R i.sel with
  | some .recv =>
    match i.recv with
    | .packet d => return .access .socket :: (← receivePacketUses host R (cutDatagram d) i.opened)
    | .error | .runt _ => return [.access .socket]
  | some .write => taskWriteUses host R.SS R.out_fd R.codec_mem i.taken i.opened
  | some .startWrite => return taskStartWriteUses host R.SS R.codec_mem i.opened
  | some .signalReady | none => return []

/-- Every call of `pselect` watches the socket. -/
def loopPassUses (L : SegmentList) (host : Host M) (R : Receiver M) (i : Input) :
    Except Fault (List (Use Owner)) := do
  if segstatesetGetMinFileNbr R.SS = L.n_segments then return rqMemBlocksFreeMemUses R.codec_mem
  else return .access .socket :: (← nexttaskUses host R i)

end RqRoute
