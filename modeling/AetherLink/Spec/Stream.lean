import AetherLink.Core.Recv.Offer
import AetherLink.Proto.Frame
import AetherLink.Spec.Held

set_option autoImplicit false

/-! # What a data stream is made of

A stream is a concatenation of whole frames: keepalives, and data frames that group into runs, each
of which carries one chunk of one file. This is the grammar of the format; nothing here is about how
a stream is read. -/

namespace AetherLink

/-- A whole frame: a header as the wire allows it, and the payload it announces. -/
structure Frame where
  header : FrameHeader
  payload : List UInt8
  valid : header.Valid
  length_eq : payload.length = header.length.toNat

namespace Frame

def bytes (f : Frame) : List UInt8 :=
  f.header.encode ++ f.payload

/-- The payloads, one after the other. -/
def payloads (fs : List Frame) : List UInt8 :=
  fs.flatMap payload

/-- The frames go on from `offset` in order and without a gap. -/
def Contiguous : Nat → List Frame → Prop
  | _, [] => True
  | offset, f :: fs =>
      f.header.offset.toNat = offset ∧ Contiguous (offset + f.payload.length) fs

/-- The run does not end with an empty frame. -/
def Tight (run : List Frame) : Prop :=
  ∀ f ∈ run.getLast?, f.payload ≠ []

/-- The run carries chunk `i` of the file `s`, known as `id`. -/
structure Carry (blake3 : Blake3) (id : UInt64) (s : FileState) (i : Nat) (run : List Frame) :
    Prop where
  sameFile : ∀ f ∈ run, f.header.fileId = id
  contiguous : Contiguous (s.layout.start i) run
  isPayload : IsPayload blake3 s.layout s.chunkHashes i (payloads run)

end Frame

namespace Files

variable (blake3 : Blake3) (files : Files)

/-- The run carries a chunk of one of the files. -/
def ChunkRun (run : List Frame) : Prop :=
  ∃ id s i, files.lookup id = some s ∧ Frame.Carry blake3 id s i run

/-- It does so in the way a worker takes it: it is over with the last byte of the chunk, and the chunk
    has a bit in the bitmap. -/
def TakenRun (run : List Frame) : Prop :=
  ∃ id s i, files.lookup id = some s ∧ Frame.Carry blake3 id s i run ∧ Frame.Tight run ∧
    i < s.bitmap.count

/-- The bytes are whole frames, keepalives and data frames that group into runs of the kind. -/
def Grouped (kind : List Frame → Prop) (bytes : List UInt8) : Prop :=
  ∃ (fs : List Frame) (runs : List (List Frame)), bytes = fs.flatMap Frame.bytes ∧
    (∀ f ∈ fs, f.header.msgType = .keepalive ∨ f.header.msgType = .fileData) ∧
    (fs.filter fun f => f.header.msgType ≠ .keepalive) = runs.flatten ∧ ∀ run ∈ runs, kind run

/-- The bytes are a stream of chunks of the files. -/
def Streams (bytes : List UInt8) : Prop :=
  Grouped (files.ChunkRun blake3) bytes

/-- They are so in runs a worker takes. -/
def StreamsTaken (bytes : List UInt8) : Prop :=
  Grouped (files.TakenRun blake3) bytes

/-- The bytes stop inside a frame header, with no chunk in progress. -/
def StopsInHeader (bytes : List UInt8) : Prop :=
  ∃ stream part, bytes = stream ++ part ∧ files.StreamsTaken blake3 stream ∧ 0 < part.length ∧
    part.length < HEADER_LEN

end Files

end AetherLink
