import AetherLink.Proto.Chunk

set_option autoImplicit false

/-! # Errors, configuration and control messages

The receiver's and the sender's control traffic at the level of whole messages: a control frame is
written with one length-prefixed payload and read back by the same codec, so a message is delivered
or the connection has failed. -/

namespace AetherLink

/-- `aetherlink_core::Error`. An `io` and a `tls` carry what was being done; the words of the
    operating system or the TLS library after it are left out. -/
inductive Error where
  | protocol (message : String)
  | tls (doing : String)
  | io (doing : String)
  | wire (error : Proto.Error)
  | incomplete (reason : String)
  | chunkVerificationFailed (offset : Nat)
  | peerAborted (reason : String)
  deriving DecidableEq, Repr

/-- The fields of `Config` that the transfer reads. -/
structure Config where
  chunkSize : UInt32
  frameSize : UInt32
  streamCount : UInt8
  maxStreams : UInt8
  maxFileBytes : UInt64
  checkpointBytes : UInt64
  resume : Bool
  deriving DecidableEq, Repr

/-- One offered file: identity, path, size, and the digests it commits to. -/
structure FileEntry where
  fileId : UInt64
  relativePath : String
  sizeBytes : UInt64
  rootHash : List UInt8
  chunkHashes : List UInt8
  deriving DecidableEq, Repr

/-- A `FileEntry` with the fields the receiver does not read. -/
structure WireEntry extends FileEntry where
  mimeType : String
  modifiedUnixMs : Int64
  createdUnixMs : Int64

structure ManifestOffer where
  chunkSize : UInt32
  files : List FileEntry
  deriving DecidableEq, Repr

/-- Resume state of one file: the bitmap the receiver already holds. -/
structure FileProgress where
  fileId : UInt64
  haveBitmap : List UInt8
  deriving DecidableEq, Repr

structure ManifestAccept where
  acceptedFileIds : List UInt64
  progress : List FileProgress
  deriving DecidableEq, Repr

/-- A control message body. The session id a `Hello` carries is not read by either side. -/
inductive Body where
  | hello (protocolVersion : UInt32) (streamCount : UInt32)
  | offer (o : ManifestOffer)
  | accept (a : ManifestAccept)
  | complete (bytesWritten : UInt64)
  | abort (reason : String)
  deriving DecidableEq, Repr

/-- The name a `Body` is shown under in an error text, its fields left out. -/
def Body.variant : Body → String
  | .hello _ _ => "Hello"
  | .offer _ => "Offer"
  | .accept _ => "Accept"
  | .complete _ => "Complete"
  | .abort _ => "Abort"

end AetherLink
