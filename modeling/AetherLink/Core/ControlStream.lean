import AetherLink.Core.Listen
import AetherLink.Proto.Frame

set_option autoImplicit false

/-! # Control-channel messages

A control message is one protobuf message in one control frame: the fixed header with the length of
the payload, and the payload. What the payload of a message is, and what message a payload is, is the
encoder's and the decoder's to say, which come with the message types (`Codec`). -/

namespace AetherLink

/-! ## Messages with all their fields -/

/-- A `ManifestOffer` with all the fields of its entries. -/
structure WireOffer where
  chunkSize : UInt32
  files : List WireEntry

/-- A `Body` with all its fields. -/
inductive WireBody where
  | hello (h : Hello)
  | offer (o : WireOffer)
  | accept (a : ManifestAccept)
  | complete (bytesWritten : UInt64)
  | abort (reason : String)

/-- The body, if there is one. -/
abbrev ControlMessage := Option WireBody

/-- `encode_to_vec` and `decode` of `ControlMessage`. The words of the decoder on why bytes are none of
    its messages are left out. -/
structure Codec where
  encode : ControlMessage → List UInt8
  decode : List UInt8 → Option ControlMessage

/-- The message is decoded as it was encoded. -/
def Codec.RoundTrips (codec : Codec) (msg : ControlMessage) : Prop :=
  codec.decode (codec.encode msg) = some msg

/-! ## Frames -/

/-- `{:?}` of a message type. -/
def MsgType.debug : MsgType → String
  | .control => "Control"
  | .fileData => "FileData"
  | .fileEnd => "FileEnd"
  | .keepalive => "Keepalive"

/-- What `write_control` writes, as the bytes of the header and of the payload. -/
def writeControl (codec : Codec) (msg : ControlMessage) : Except Error (List UInt8) :=
  let payload := codec.encode msg
  if MAX_FRAME_PAYLOAD < payload.length then
    .error (.protocol ("control message of " ++ toString payload.length ++
      " bytes exceeds the frame maximum"))
  else .ok ((FrameHeader.new .control 0 0 (UInt32.ofNat payload.length)).encode ++ payload)

/-- `read_exact` on a stream of which this is what is still to come before it ends. -/
def readExact (n : Nat) (stream : List UInt8) : Except Error (List UInt8 × List UInt8) :=
  if stream.length < n then .error (.io "early eof") else .ok (stream.take n, stream.drop n)

/-- `into_body`. -/
def ControlMessage.intoBody : ControlMessage → Except Error WireBody
  | some body => .ok body
  | none => .error (.protocol "control message has no body")

/-- Reads one control message, and leaves what comes after it. -/
def readControl (codec : Codec) (stream : List UInt8) : Except Error (WireBody × List UInt8) :=
  match readExact HEADER_LEN stream with
  | .error e => .error e
  | .ok (headerBuf, afterHeader) =>
      match FrameHeader.decode headerBuf with
      | .error e => .error (.wire e)
      | .ok header =>
          if header.msgType ≠ .control then
            .error (.protocol ("expected a control frame, got " ++ header.msgType.debug))
          else match readExact header.length.toNat afterHeader with
            | .error e => .error e
            | .ok (payload, rest) =>
                match codec.decode payload with
                | none => .error (.protocol "decoding control message")
                | some msg => msg.intoBody.map fun body => (body, rest)

end AetherLink
