import RqRoute.Library.Buffer
import RqRoute.Library.Bytes
import RqRoute.Library.CString
import RqRoute.Library.Checked
import RqRoute.Library.Chunks
import RqRoute.Library.Cyclic
import RqRoute.Library.Dedup
import RqRoute.Library.EvenParts
import RqRoute.Library.Lines
import RqRoute.Library.Ownership
import RqRoute.Library.Pacing
import RqRoute.Library.Paired
import RqRoute.Library.Pieces
import RqRoute.Library.Probing
import RqRoute.Library.SlidingMap
import RqRoute.Library.Transition
import RqRoute.Model.Arith
import RqRoute.Model.Cli
import RqRoute.Model.Codeblockstate
import RqRoute.Model.Commands
import RqRoute.Model.Deadline
import RqRoute.Model.IntArith
import RqRoute.Model.M3u8
import RqRoute.Model.NameBuffer
import RqRoute.Model.PacketHeader
import RqRoute.Model.ParamDeriv
import RqRoute.Model.Receiver
import RqRoute.Model.Resources
import RqRoute.Model.RqMemBlocks
import RqRoute.Model.SegmentList
import RqRoute.Model.Segstate
import RqRoute.Model.Segstateset
import RqRoute.Model.SendLoop
import RqRoute.Model.Sender
import RqRoute.Model.Timeutil
import RqRoute.Model.Udp
import RqRoute.Model.Wire
import RqRoute.Verification.Broadcast
import RqRoute.Verification.Codeblockstate.Decode
import RqRoute.Verification.Codeblockstate.Direct
import RqRoute.Verification.Codeblockstate.Failure
import RqRoute.Verification.Codeblockstate.Reconstruct
import RqRoute.Verification.Codeblockstate.Stale
import RqRoute.Verification.Codeblockstate.Store
import RqRoute.Verification.Codec.Contract
import RqRoute.Verification.Codec.MemBlocks
import RqRoute.Verification.Codec.Repetition
import RqRoute.Verification.Codec.StaleFree
import RqRoute.Verification.EndToEnd
import RqRoute.Verification.M3u8.Entries
import RqRoute.Verification.M3u8.Names
import RqRoute.Verification.NameBuffer
import RqRoute.Verification.Numbering
import RqRoute.Verification.ParamDeriv.Blocks
import RqRoute.Verification.ParamDeriv.Bounds
import RqRoute.Verification.Receiver.Control
import RqRoute.Verification.Receiver.Deadline
import RqRoute.Verification.Receiver.Faults
import RqRoute.Verification.Receiver.Hostile
import RqRoute.Verification.Receiver.InOrder
import RqRoute.Verification.Receiver.Integrity
import RqRoute.Verification.Receiver.Invariant
import RqRoute.Verification.Receiver.Isolation
import RqRoute.Verification.Receiver.Late
import RqRoute.Verification.Receiver.Lossless
import RqRoute.Verification.Receiver.NoAbort
import RqRoute.Verification.Receiver.Pass
import RqRoute.Verification.Receiver.Progress
import RqRoute.Verification.Receiver.Resources
import RqRoute.Verification.Receiver.Table
import RqRoute.Verification.Receiver.Traffic
import RqRoute.Verification.Receiver.Wakeup
import RqRoute.Verification.Receiver.Wedge
import RqRoute.Verification.Receiver.Wrap
import RqRoute.Verification.Receiver.WriterWindow
import RqRoute.Verification.Segstate.Lone
import RqRoute.Verification.Segstate.Output
import RqRoute.Verification.Segstate.Receive
import RqRoute.Verification.Segstate.Resources
import RqRoute.Verification.Segstate.Resume
import RqRoute.Verification.Segstateset.Refinement
import RqRoute.Verification.Segstateset.Window
import RqRoute.Verification.Sender.Commands
import RqRoute.Verification.Sender.Emission
import RqRoute.Verification.Sender.Envelope
import RqRoute.Verification.Sender.FileSize
import RqRoute.Verification.Sender.Interactive
import RqRoute.Verification.Sender.Repair
import RqRoute.Verification.Sender.Schedule
import RqRoute.Verification.Sender.Settings
import RqRoute.Verification.Sender.Stream
import RqRoute.Verification.Sender.Throttle
import RqRoute.Verification.Timeutil
import RqRoute.Verification.Transfer
import RqRoute.Verification.Wire
