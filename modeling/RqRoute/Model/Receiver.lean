import RqRoute.Model.SegmentList
import RqRoute.Model.Segstateset

/-! # The receiver

`receiver.c`: the loop that receives datagrams into the ring of segments and writes the
segments out. One pass of the loop is a function of the state and of what the system
calls of that pass report; its events are what can be seen from outside. -/

namespace RqRoute

open Checked

inductive Event where
  /-- a datagram was handed to the segment it belongs to -/
  | accepted (file_nbr : ℤ) (d : Datagram)
  /-- `L->segments[file_nbr]` was read -/
  | lookedUp (file_nbr : ℤ)
  | opened (file_nbr out_fd : ℤ)
  | wrote (file_nbr : ℤ) (bytes : List UInt8)
  /-- the segment was freed and its descriptor closed -/
  | retired (file_nbr : ℤ)
deriving DecidableEq, Repr

/-- What the writing tasks return: the descriptor, and the memory they worked on. -/
structure TaskResult (M : Type) where
  out_fd : ℤ
  SS : Segstateset
  codec_mem : RqMemBlocks M
  events : List Event

variable {M : Type}

/-- `opened` is the result of `open`: `none` is a failure. -/
def taskStartWrite (host : Host M) (SS : Segstateset) (codec_mem : RqMemBlocks M)
    (opened : Option ℕ) : Except Fault (TaskResult M) := do
  let file_nbr := segstatesetGetMinFileNbr SS
  let (status, slot) := segstatesetGet SS file_nbr
  let idle : TaskResult M := { out_fd := -1, SS, codec_mem, events := [] }
  if status = .uninitialized then return idle
  else
    let idx ← orElse slot .nullPointer
    if segstateGetMode (SS.states idx) ≠ .readyToWrite then return idle
    else
      match opened with
      | none => return { idle with events := [.lookedUp file_nbr] }
      | some fd =>
        let events := [.lookedUp file_nbr, .opened file_nbr fd]
        if status = .ok then
          let m ← segstatePrepareOutput host (SS.states idx) fd codec_mem
          return { out_fd := fd, SS := SS.setSlot idx m.S, codec_mem := m.codec_mem, events }
        else if status = .uninitialized then
          -- received no packets whatsoever for the segment
          return { idle with SS := segstatesetIncMinFileNbr SS, events }
        else
          return { idle with out_fd := fd, events }

def taskWrite (host : Host M) (SS : Segstateset) (out_fd : ℤ) (codec_mem : RqMemBlocks M)
    (taken opened : Option ℕ) : Except Fault (TaskResult M) := do
  let file_nbr := segstatesetGetMinFileNbr SS
  let (status, slot) := segstatesetGet SS file_nbr
  check (status = .ok) .taskWriteStatus
  let idx ← orElse slot .nullPointer
  let w ← segstateWriteMore host { S := SS.states idx, codec_mem } taken
  let written := [.wrote file_nbr w.written]
  if w.more then
    return { out_fd, SS := SS.setSlot idx w.mem.S, codec_mem := w.mem.codec_mem
             events := written }
  else
    let SS := segstatesetIncMinFileNbr (SS.setSlot idx (segstateFree w.mem.S))
    -- check if the next segment is ready to write
    let r ← taskStartWrite host SS w.mem.codec_mem opened
    return { r with events := written ++ [.retired file_nbr] ++ r.events }

/-- The variables of `receive_write` at the top of its loop. -/
structure Receiver (M : Type) where
  SS : Segstateset
  out_fd : ℤ
  codec_mem : RqMemBlocks M
  started : Bool
  write_ok : Bool
  recv_file_nbr : ℤ
  ready_fd : ℤ

def Receiver.init (host : Host M) (ready_fd : ℤ) : Receiver M :=
  { SS := segstatesetInit 0
    out_fd := -1
    codec_mem := .zero host
    started := false
    write_ok := false
    recv_file_nbr := -1
    ready_fd }

/-- What `pselect` returns, with the bits of the socket in `rfds` and of the one
descriptor in `wfds`: the output while there is one, else the ready descriptor. -/
structure Pselect where
  rv : ℤ
  rsock : Bool
  wfd : Bool
deriving DecidableEq, Repr

/-- The result of `recv`: an error, fewer bytes than a header, or a packet. -/
inductive Recv where
  | error
  | runt (size : Fin sizeofRouteHeader)
  | packet (d : Datagram)
deriving DecidableEq, Repr

/-- What the system calls of one pass report; those that are not reached are not looked
at. -/
structure Input where
  sel : Pselect
  recv : Recv
  opened : Option ℕ
  taken : Option ℕ
deriving DecidableEq, Repr

inductive Task where
  | recv
  | write
  | startWrite
  | signalReady
deriving DecidableEq, Repr

/-- A timeout is passed to `pselect`. -/
def Receiver.HasTimeout (R : Receiver M) : Prop :=
  R.out_fd = -1 ∧ R.started ∧ ¬R.write_ok

/-- `wfds` is passed to `pselect`, with a descriptor in it. -/
def Receiver.WatchesWrite (R : Receiver M) : Prop :=
  R.out_fd ≠ -1 ∨ ¬R.started ∧ R.ready_fd > 0

instance (R : Receiver M) : Decidable R.HasTimeout := inferInstanceAs (Decidable (_ ∧ _))

instance (R : Receiver M) : Decidable R.WatchesWrite := inferInstanceAs (Decidable (_ ∨ _))

/-- What `pselect` may report: an error, or the number of bits left set, which lie among
those passed; none only when a timeout was passed. -/
def Receiver.MayReport (R : Receiver M) (p : Pselect) : Prop :=
  p.rv < 0 ∨
    (p.rv = p.rsock.toNat + p.wfd.toNat ∧ (p.wfd → R.WatchesWrite) ∧ (p.rv = 0 → R.HasTimeout))

instance (R : Receiver M) (p : Pselect) : Decidable (R.MayReport p) :=
  inferInstanceAs (Decidable (_ ∨ _))

/-- Figure out what to do next; `none` leaves the function. -/
def nexttask (R : Receiver M) (p : Pselect) : Except Fault (Option Task) :=
  if p.rv < 0 then .ok none
  else if R.out_fd = -1 then
    if p.rv > 0 then
      if R.ready_fd ≠ -1 ∧ p.wfd then .ok (some .signalReady)
      else do
        check p.rsock .selectSock
        return some .recv
    else .ok (some .startWrite)
  else do
    check (p.rv = 1 ∨ p.rv = 2) .selectCount
    return some (if p.rsock then .recv else .write)

/-- Take over what a writing task returned. -/
def Receiver.after (R : Receiver M) (r : TaskResult M) : Receiver M :=
  { R with out_fd := r.out_fd, SS := r.SS, codec_mem := r.codec_mem }

/-- A datagram of a segment that is seen for the first time, up to the fall-through. -/
def initSegment (host : Host M) (R : Receiver M) (idx : Fin segstateSetN)
    (header : RouteHeader) (opened : Option ℕ) : Except Fault (Receiver M × List Event) := do
  let file_nbr : ℤ := header.toi.toNat
  let R := { R with started := true }
  let S ← segstateInit host file_nbr header.tos.toNat
  let (_, SS) ← segstatesetMarkInitialized (R.SS.setSlot idx S) file_nbr
  let R := { R with SS }
  if file_nbr > R.recv_file_nbr then
    let R := { R with
      recv_file_nbr := file_nbr
      SS := segstatesetMarkReadytowrite R.SS file_nbr }
    if R.write_ok ∧ R.out_fd = -1 then
      let r ← taskStartWrite host R.SS R.codec_mem opened
      return (R.after r, r.events)
    else return (R, [])
  else return (R, [])

/-- Where the first two cases of the switch meet. -/
def addToSegment (R : Receiver M) (idx : Fin segstateSetN) (d : Datagram) :
    Except Fault (Receiver M × List Event) := do
  let S ← segstateAddPacket (R.SS.states idx) d.header d.payload
  return ({ R with SS := R.SS.setSlot idx S }, [.accepted d.header.toi.toNat d])

/-- What `recv` leaves of a datagram: the rest of a longer one is cut off. -/
def cutDatagram (d : Datagram) : Datagram :=
  { d with payload := d.payload.take (sizeofPacketbuf - sizeofRouteHeader) }

/-- `TASK_RECV`, from the packet in the buffer on. -/
def receivePacket (host : Host M) (R : Receiver M) (d : Datagram) (opened : Option ℕ) :
    Except Fault (Receiver M × List Event) := do
  match segstatesetGet R.SS d.header.toi.toNat with
  | (.ok, slot) =>
    let idx ← orElse slot .nullPointer
    addToSegment R idx d
  | (.uninitialized, slot) =>
    let idx ← orElse slot .nullPointer
    let (R, started) ← initSegment host R idx d.header opened
    let (R, added) ← addToSegment R idx d
    return (R, started ++ added)
  | (.belowMin, _) | (.aboveMax, _) => return (R, [])

/-- One pass of the loop; `none` leaves the function. -/
def loopPass (L : SegmentList) (host : Host M) (R : Receiver M) (i : Input) :
    Except Fault (Option (Receiver M × List Event)) := do
  if segstatesetGetMinFileNbr R.SS = L.n_segments then return none
  else
    match ← nexttask R i.sel with
    | none => return none
    | some .recv =>
      match i.recv with
      | .error => return none
      | .runt _ => .error .recvSize
      | .packet d => some <$> receivePacket host R (cutDatagram d) i.opened
    | some .write =>
      let r ← taskWrite host R.SS R.out_fd R.codec_mem i.taken i.opened
      return some (R.after r, r.events)
    | some .startWrite =>
      -- the first deadline has passed
      let R := { R with write_ok := true }
      let r ← taskStartWrite host R.SS R.codec_mem i.opened
      return some (R.after r, r.events)
    | some .signalReady =>
      check (R.ready_fd ≥ 0) .signalReadyFd
      return some ({ R with ready_fd := -1 }, [])

/-- A pass from one top of the loop to the next. -/
def Receiver.Step (L : SegmentList) (host : Host M) (R : Receiver M) (i : Input)
    (R' : Receiver M) (es : List Event) : Prop :=
  R.MayReport i.sel ∧ loopPass L host R i = .ok (some (R', es))

end RqRoute
