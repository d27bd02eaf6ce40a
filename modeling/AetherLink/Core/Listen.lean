import AetherLink.Core.Transfer

set_option autoImplicit false

/-! # A listening receiver and the connections that reach it

A hosting receiver takes its streams from one listener, in the order in which connections arrive:
the control stream first, then the data streams. Any number of senders may connect at any time, each
with its own session id, and each says `Hello` on every stream it opens.

The first message of a connection is all that tells whose it is. The receiver reads the control
stream's `Hello`; of a data stream's it reads only that there is one. -/

namespace AetherLink

/-- `Hello`. -/
structure Hello where
  protocolVersion : UInt32
  sessionId : List UInt8
  streamCount : UInt32
  deriving DecidableEq, Repr

/-- What the receiver's code looks at in a `Hello`. -/
def Hello.body (h : Hello) : Body :=
  .hello h.protocolVersion h.streamCount

/-- Both say they are of one session. -/
def Hello.SameSession (h g : Hello) : Prop :=
  h.sessionId = g.sessionId ∧ h.protocolVersion = g.protocolVersion

instance (h g : Hello) : Decidable (h.SameSession g) :=
  inferInstanceAs (Decidable (_ ∧ _))

/-- A connection, by what the receiver first sees of it. -/
inductive Connection where
  | hello (h : Hello)
  /-- a message of another kind -/
  | other (variant : String)
  /-- the handshake, or reading the message, fails -/
  | fails (error : Error)
  deriving DecidableEq

namespace Connection

def hello? : Connection → Option Hello
  | .hello h => some h
  | _ => none

/-- `run` with this connection as its control stream. -/
def onControl (config : Config) (told : Bool) : Connection → Receiver
  | .hello h => .onHello config told h.body
  | .other variant => .refused [] (.protocol ("expected Hello, got " ++ variant))
  | .fails error => .refused [] error

/-- What taking this connection as a data stream is to the session. -/
def onData : Connection → SessionAct
  | .hello _ => .accept
  | .other variant => .refuse (.protocol ("expected Hello, got " ++ variant))
  | .fails error => .refuse error

end Connection

/-- A receiver with its listener. -/
structure Listening where
  /-- every connection that has reached the listener, in order of arrival -/
  arrived : List Connection
  /-- how many of them the receiver has taken -/
  taken : Nat
  /-- the `Hello` of the control stream -/
  control : Option Hello
  receiver : Receiver
  /-- the connection behind each worker, by its place among the arrived -/
  streams : List Nat

def Listening.init : Listening :=
  { arrived := [], taken := 0, control := none, receiver := .awaitingHello, streams := [] }

/-- What can happen next. -/
inductive ListenAct where
  /-- a connection reaches the listener -/
  | connect (conn : Connection)
  /-- the receiver takes its control stream -/
  | control (told : Bool)
  /-- the receiver reads the second message of the control stream and answers it -/
  | offer (body : Body) (ios : List EntryIo) (written : Bool)
  /-- the control stream fails before the second message -/
  | lost (error : Error)
  /-- the receiver takes its next data stream -/
  | take
  /-- bytes arrive on a connection -/
  | bytes (k : Nat) (bs : List UInt8)
  /-- a connection ends -/
  | ends (k : Nat) (how : Closing)
  /-- a step of the receiver's session that has to do with no connection -/
  | session (act : SessionAct)

namespace Listening

/-- There is an outcome of the calls for each offered file. -/
def fits (ios : List EntryIo) : Body → Bool
  | .offer o => ios.length == o.files.length
  | _ => true

/-- A step of the session that runs, if one does. -/
def sessionStep (c : Parties) (l : Listening) (act : SessionAct) : Option Listening :=
  match l.receiver with
  | .running accept totalBytes s =>
      (s.step (c.params totalBytes) act).map fun s' =>
        { l with receiver := .running accept totalBytes s' }
  | _ => none

def step (c : Parties) (l : Listening) : ListenAct → Option Listening
  | .connect conn => some { l with arrived := l.arrived ++ [conn] }
  | .control told =>
      match l.receiver, l.arrived[l.taken]? with
      | .awaitingHello, some conn =>
          some { l with
            taken := l.taken + 1
            control := conn.hello?
            receiver := conn.onControl c.receiverConfig told }
      | _, _ => none
  | .offer body ios written =>
      match l.receiver with
      | .awaitingOffer streamCount =>
          if fits ios body then
            some { l with receiver := .onOffer c streamCount ios written body }
          else none
      | _ => none
  | .lost error =>
      match l.receiver with
      | .awaitingOffer _ => some { l with receiver := .refused [] error }
      | _ => none
  | .take =>
      match l.arrived[l.taken]? with
      | none => none
      | some conn =>
          -- `Body::Hello(_) => {}`: the `Hello` itself is dropped
          (l.sessionStep c conn.onData).map fun l' =>
            { l' with
              taken := l.taken + 1
              streams := l.streams ++ (conn.hello?.map fun _ => l.taken).toList }
  | .bytes k bs =>
      match l.streams.idxOf? k with
      | none => none
      | some i => l.sessionStep c (.deliver i bs)
  | .ends k how =>
      match l.streams.idxOf? k with
      | none => none
      | some i => l.sessionStep c (.close i how)
  | .session act =>
      match act with
      | .deliver _ _ => none
      | .close _ _ => none
      | .accept => none
      | .refuse _ => none
      | act => l.sessionStep c act

abbrev runs (c : Parties) : Listening → List ListenAct → Option Listening :=
  Run.runs (step c)

/-- Connection `k` says it is of the session of the control stream. -/
def OfSession (l : Listening) (k : Nat) : Prop :=
  ∃ h g, l.arrived[k]? = some (.hello h) ∧ l.control = some g ∧ h.SameSession g

/-- **Data streams belong to their session**: every stream slot is taken by a connection of the
    session, and so are all bytes that reach a worker. -/
structure Belongs (c : Parties) (l : Listening) : Prop where
  slots : ∀ k ∈ l.streams, l.OfSession k
  frames : ∀ k bs l', l.step c (.bytes k bs) = some l' → l.OfSession k

end Listening

/-- The connections of a run, in the order in which they reach the listener. -/
def arrivals (acts : List ListenAct) : List Connection :=
  acts.filterMap fun a =>
    match a with
    | .connect conn => some conn
    | _ => none

end AetherLink
