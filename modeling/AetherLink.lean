import AetherLink.Core.Abort
import AetherLink.Core.Control
import AetherLink.Core.ControlStream
import AetherLink.Core.Io
import AetherLink.Core.Listen
import AetherLink.Core.Progress
import AetherLink.Core.Recv.Checkpoint
import AetherLink.Core.Recv.Device
import AetherLink.Core.Recv.Drain
import AetherLink.Core.Recv.Host
import AetherLink.Core.Recv.Offer
import AetherLink.Core.Recv.Session
import AetherLink.Core.Recv.Task
import AetherLink.Core.Release
import AetherLink.Core.Resume
import AetherLink.Core.Send
import AetherLink.Core.Transfer
import AetherLink.Ffi.Engine
import AetherLink.Ffi.Fingerprint
import AetherLink.Ffi.Observer
import AetherLink.Lib.Bytes
import AetherLink.Lib.Disk
import AetherLink.Lib.Halts
import AetherLink.Lib.Hex
import AetherLink.Lib.Ranges
import AetherLink.Lib.Run
import AetherLink.Lib.Tally
import AetherLink.Lib.Text
import AetherLink.Lib.Tree
import AetherLink.Proofs.Accepted
import AetherLink.Proofs.Agreement
import AetherLink.Proofs.Announce
import AetherLink.Proofs.Believed
import AetherLink.Proofs.Beside
import AetherLink.Proofs.Codec
import AetherLink.Proofs.Commitment
import AetherLink.Proofs.Completion
import AetherLink.Proofs.Confined
import AetherLink.Proofs.ControlStream
import AetherLink.Proofs.Conversation
import AetherLink.Proofs.Counter
import AetherLink.Proofs.Delivery
import AetherLink.Proofs.Destination
import AetherLink.Proofs.Drain
import AetherLink.Proofs.Durable
import AetherLink.Proofs.Effect
import AetherLink.Proofs.Emission
import AetherLink.Proofs.Engine
import AetherLink.Proofs.Fingerprint
import AetherLink.Proofs.Gate
import AetherLink.Proofs.Geometry
import AetherLink.Proofs.Grammar
import AetherLink.Proofs.Halting
import AetherLink.Proofs.HashPass
import AetherLink.Proofs.HashSet
import AetherLink.Proofs.Integrity
import AetherLink.Proofs.Lane
import AetherLink.Proofs.Layout
import AetherLink.Proofs.Listen
import AetherLink.Proofs.Liveness
import AetherLink.Proofs.NameCap
import AetherLink.Proofs.Names
import AetherLink.Proofs.Observer
import AetherLink.Proofs.Offer
import AetherLink.Proofs.Outcome
import AetherLink.Proofs.Overlap
import AetherLink.Proofs.Paths
import AetherLink.Proofs.Progress
import AetherLink.Proofs.Queue
import AetherLink.Proofs.Receipt
import AetherLink.Proofs.Record
import AetherLink.Proofs.Refusal
import AetherLink.Proofs.Release
import AetherLink.Proofs.Resumed
import AetherLink.Proofs.Returning
import AetherLink.Proofs.Safety
import AetherLink.Proofs.Saving
import AetherLink.Proofs.Sender
import AetherLink.Proofs.Sending
import AetherLink.Proofs.Separation
import AetherLink.Proofs.Session
import AetherLink.Proofs.Setup
import AetherLink.Proofs.Sharing
import AetherLink.Proofs.Sidecar
import AetherLink.Proofs.Silence
import AetherLink.Proofs.Slot
import AetherLink.Proofs.Stale
import AetherLink.Proofs.Steady
import AetherLink.Proofs.Stream
import AetherLink.Proofs.Throttle
import AetherLink.Proofs.Trigger
import AetherLink.Proofs.Turn
import AetherLink.Proofs.Waiting
import AetherLink.Proofs.Watched
import AetherLink.Proto.Bitmap
import AetherLink.Proto.Chunk
import AetherLink.Proto.Frame
import AetherLink.Proto.HashSet
import AetherLink.Proto.Manifest
import AetherLink.Spec.Held
import AetherLink.Spec.Stream
import AetherLink.Spec.TableHash
import AetherLink.Spec.Wire
