import AetherLink.Core.Abort
import AetherLink.Core.Recv.Session
import AetherLink.Core.Send

set_option autoImplicit false

/-! # A transfer

A sender and a receiver joined by a control connection and one connection per data stream. Both ends
take the streams of a session in the same order, so the `i`-th worker of one side has the other end
of the `i`-th worker's stream. A stream delivers what was written, in order, in pieces of any size,
until it ends: after everything, or wherever it is cut.

A control message is delivered whole or the connection has failed, so of the control connection only
the messages are kept: what each side has written, and how many of the receiver's the sender has
read. -/

namespace AetherLink

/-! ## The receiver before `Accept` -/

/-- `run` on the receiving side. -/
inductive Receiver where
  | awaitingHello
  | awaitingOffer (streamCount : UInt32)
  /-- ended before `Accept`, with what it had written -/
  | refused (messages : List Body) (error : Error)
  | running (accept : ManifestAccept) (totalBytes : UInt64) (session : Session)

/-- What is fixed for a transfer: the two configurations, the files offered, and the disk and the
    directory they are received into. -/
structure Parties where
  blake3 : Blake3
  /-- the characters that the standard library's Unicode tables have `Debug` escape -/
  escaped : Char → Bool := fun _ => false
  senderConfig : Config
  receiverConfig : Config
  files : List OutgoingFile
  /-- More files than this do not fit in memory. -/
  files_length_lt : files.length < 2 ^ 64
  outputDir : FilePath
  disk : FileSystem

namespace Receiver

/-- Ended over a message that was not the one expected. -/
def unexpected (expected : String) (body : Body) : Receiver :=
  .refused [] (.protocol ("expected " ++ expected ++ ", got " ++ body.variant))

/-- `Abort` goes out, unless it cannot be written. -/
def abort (told : Bool) (reason : String) : List Body :=
  if told then [.abort reason] else []

/-- The first message on the control stream. -/
def onHello (config : Config) (told : Bool) : Body → Receiver
  | .hello version streamCount =>
      if version ≠ PROTOCOL_VERSION.toUInt32 then
        let reason := "peer speaks protocol v" ++ toString version.toNat
        .refused (abort told reason) (.protocol reason)
      else if streamCount = 0 ∨ config.maxStreams.toUInt32 < streamCount then
        let reason := "peer requested " ++ toString streamCount.toNat ++
          " streams, outside the accepted range 1..=" ++ toString config.maxStreams.toNat
        .refused (abort told reason) (.protocol reason)
      else .awaitingOffer streamCount
  | other => unexpected "Hello" other

/-- The second: the offer is gone through, and accepted or refused. `written` says whether the answer
    can be written. -/
def onOffer (c : Parties) (streamCount : UInt32) (ios : List EntryIo) (written : Bool) :
    Body → Receiver
  | .offer o =>
      match offerLoop c.blake3 c.receiverConfig c.outputDir o.chunkSize (.init c.disk)
          (o.files.zip ios) with
      | .error r =>
          .refused (if r.abort then abort written (r.error.reason c.escaped) else []) r.error
      | .ok st =>
          if written then
            .running { acceptedFileIds := st.accepted, progress := st.progress } st.totalBytes
              (Session.start st streamCount)
          else .refused [] (.io "writing Accept")
  | other => unexpected "Offer" other

/-- The control messages the receiver has written, first to last. -/
def messages : Receiver → List Body
  | .awaitingHello => []
  | .awaitingOffer _ => []
  | .refused messages _ => messages
  | .running accept _ session => .accept accept :: session.env.sent

end Receiver

/-- The constants of the receiver's session. -/
def Parties.params (c : Parties) (totalBytes : UInt64) : Params :=
  { blake3 := c.blake3, totalBytes := totalBytes,
    checkpointBytes := c.receiverConfig.checkpointBytes }

/-! ## Both sides -/

structure Transfer where
  sender : Sender
  receiver : Receiver
  /-- how many of the receiver's messages the sender has read -/
  read : Nat

def Transfer.init : Transfer :=
  { sender := .init, receiver := .awaitingHello, read := 0 }

/-- Where the sender has its data streams from. -/
inductive StreamSource where
  /-- `Dialer`: the sender joined the network the receiver hosts -/
  | dialer
  /-- `Acceptor`: the sender hosts it -/
  | acceptor
  deriving DecidableEq, Repr

/-- What can happen next. -/
inductive TransferAct where
  /-- `run` on the sending side takes a step other than reading -/
  | sender (act : Sender.Act)
  /-- `run` on the sending side reads the receiver's next message -/
  | reads
  | sendWorker (i : Nat) (io : SendIo)
  /-- the receiver reads `Hello` -/
  | hello (told : Bool)
  /-- the receiver reads `Offer` and answers it -/
  | offer (ios : List EntryIo) (written : Bool)
  /-- the receiver's control connection fails before `Accept` -/
  | lost (error : Error)
  /-- a step of the receiver's session, other than an arrival -/
  | session (act : SessionAct)
  /-- the next `n` bytes of stream `i` arrive -/
  | deliver (i n : Nat)
  /-- the end of stream `i` arrives, after everything written -/
  | eof (i : Nat)
  /-- stream `i` is cut: the receiver sees an end here -/
  | cut (i : Nat) (how : Closing)

namespace Transfer

/-- The receiver has let go of stream `i`, which its worker does when it ends. -/
def released (t : Transfer) (i : Nat) : Bool :=
  match t.receiver with
  | .running _ _ s =>
      match s.workers[i]? with
      | none => false
      | some w => w.pc.result?.isSome
  | _ => false

/-- The session the receiver runs takes a step. -/
def sessionStep (c : Parties) (t : Transfer) (act : SessionAct) : Option Transfer :=
  match t.receiver with
  | .running accept totalBytes s =>
      (s.step (c.params totalBytes) act).map fun s' =>
        { t with receiver := .running accept totalBytes s' }
  | _ => none

/-- How many streams the receiver has taken. -/
def taken (t : Transfer) : Nat :=
  match t.receiver with
  | .running _ _ s => s.workers.length
  | _ => 0

def step (c : Parties) (t : Transfer) : TransferAct → Option Transfer
  | .sender act =>
      match act with
      | .reads _ => none
      | act =>
          (t.sender.mainStep c.blake3 c.senderConfig c.files act).map fun s =>
            { t with sender := s }
  | .reads =>
      match t.receiver.messages[t.read]? with
      | none => none
      | some body =>
          (t.sender.mainStep c.blake3 c.senderConfig c.files (.reads body)).map fun s =>
            { t with sender := s, read := t.read + 1 }
  | .sendWorker i io =>
      match t.sender.workers[i]? with
      | none => none
      | some w =>
          -- the peer's end of file is there once the peer has let go of the stream
          match w.pc, io with
          | .draining, .next =>
              if t.released i then
                (t.sender.workerStep c.senderConfig.frameSize i io).map fun s =>
                  { t with sender := s }
              else none
          | _, _ =>
              (t.sender.workerStep c.senderConfig.frameSize i io).map fun s =>
                { t with sender := s }
  | .hello told =>
      match t.receiver, t.sender.messages[0]? with
      | .awaitingHello, some body =>
          some { t with receiver := .onHello c.receiverConfig told body }
      | _, _ => none
  | .offer ios written =>
      match t.receiver, t.sender.messages[1]? with
      | .awaitingOffer streamCount, some body =>
          if ios.length = c.files.length then
            some { t with receiver := .onOffer c streamCount ios written body }
          else none
      | _, _ => none
  | .lost error =>
      match t.receiver with
      | .awaitingHello => some { t with receiver := .refused [] error }
      | .awaitingOffer _ => some { t with receiver := .refused [] error }
      | _ => none
  | .session act =>
      match act with
      | .deliver _ _ => none
      | .close _ _ => none
      | .accept => if t.taken < t.sender.workers.length then t.sessionStep c .accept else none
      | act => t.sessionStep c act
  | .deliver i n =>
      match t.sender.workers[i]? with
      | none => none
      | some w =>
          if w.stream.delivered + n ≤ w.stream.written.length then
            (t.sessionStep c (.deliver i ((w.stream.written.drop w.stream.delivered).take n))).map
              fun t' => { t' with sender := { t.sender with
                workers := t.sender.workers.set i { w with
                  stream := { w.stream with delivered := w.stream.delivered + n } } } }
          else none
  | .eof i =>
      match t.sender.workers[i]? with
      | none => none
      | some w =>
          if w.stream.shut ∧ w.stream.delivered = w.stream.written.length then
            t.sessionStep c (.close i .eof)
          else none
  | .cut i how => t.sessionStep c (.close i how)

/-- The transfers `t` can become. -/
def runs (c : Parties) (t : Transfer) (as : List TransferAct) : Option Transfer :=
  Run.runs (step c) t as

/-! ### Who dials

A sender takes its streams from a `StreamSource`. A `Dialer` calls the receiver, which answers or is
not there: the call returns in either case. An `Acceptor` waits for the receiver to call. -/

/-- The receiver is about to take the stream that the sender is about to take. -/
def dialed (t : Transfer) : Bool :=
  match t.receiver with
  | .running _ _ s =>
      match s.main with
      | .spawning (_ + 1) => decide (s.workers.length = t.sender.workers.length)
      | _ => false
  | _ => false

/-- One step of a transfer whose sender has this source. -/
def stepWith (c : Parties) (source : StreamSource) (t : Transfer) (a : TransferAct) :
    Option Transfer :=
  match source, t.sender.main, a with
  | .acceptor, .spawning (_ + 1), .sender .next => if t.dialed then t.step c a else none
  | _, _, _ => t.step c a

def runsWith (c : Parties) (source : StreamSource) (t : Transfer) (as : List TransferAct) :
    Option Transfer :=
  Run.runs (stepWith c source) t as

theorem step_of_stepWith {c : Parties} {source : StreamSource} {t t' : Transfer} {a : TransferAct}
    (h : t.stepWith c source a = some t') : t.step c a = some t' := by
  unfold stepWith at h
  split at h
  · split at h
    · exact h
    · cases h
  · exact h

/-! ## What a step can be -/

/-- Everything a step of a transfer can be, by the act taken. -/
inductive Move (c : Parties) (t : Transfer) : TransferAct → Transfer → Prop
  | sender {act : Sender.Act} {s : Sender} (hact : ∀ body, act ≠ .reads body)
      (h : t.sender.mainStep c.blake3 c.senderConfig c.files act = some s) :
      Move c t (.sender act) { t with sender := s }
  | reads {body : Body} {s : Sender} (hbody : t.receiver.messages[t.read]? = some body)
      (h : t.sender.mainStep c.blake3 c.senderConfig c.files (.reads body) = some s) :
      Move c t .reads { t with sender := s, read := t.read + 1 }
  | sendWorker {i : Nat} {io : SendIo} {s : Sender}
      (h : t.sender.workerStep c.senderConfig.frameSize i io = some s) :
      Move c t (.sendWorker i io) { t with sender := s }
  | hello (told : Bool) {body : Body} (hreceiver : t.receiver = .awaitingHello)
      (hbody : t.sender.messages[0]? = some body) :
      Move c t (.hello told) { t with receiver := .onHello c.receiverConfig told body }
  | offer {ios : List EntryIo} (written : Bool) {streamCount : UInt32} {body : Body}
      (hreceiver : t.receiver = .awaitingOffer streamCount)
      (hbody : t.sender.messages[1]? = some body) (hios : ios.length = c.files.length) :
      Move c t (.offer ios written)
        { t with receiver := .onOffer c streamCount ios written body }
  | lost (error : Error) (hreceiver : t.receiver = .awaitingHello ∨
        ∃ streamCount, t.receiver = .awaitingOffer streamCount) :
      Move c t (.lost error) { t with receiver := .refused [] error }
  | session {act : SessionAct} {accept : ManifestAccept} {totalBytes : UInt64} {s s' : Session}
      (hreceiver : t.receiver = .running accept totalBytes s)
      (hact : ∀ i, (∀ bytes, act ≠ .deliver i bytes) ∧ ∀ how, act ≠ .close i how)
      (htaken : act = .accept → s.workers.length < t.sender.workers.length)
      (h : s.step (c.params totalBytes) act = some s') :
      Move c t (.session act) { t with receiver := .running accept totalBytes s' }
  | deliver {i n : Nat} {w : SendWorker} {accept : ManifestAccept} {totalBytes : UInt64}
      {s s' : Session} (hw : t.sender.workers[i]? = some w)
      (hn : w.stream.delivered + n ≤ w.stream.written.length)
      (hreceiver : t.receiver = .running accept totalBytes s)
      (h : s.step (c.params totalBytes)
        (.deliver i ((w.stream.written.drop w.stream.delivered).take n)) = some s') :
      Move c t (.deliver i n)
        { t with
          sender := { t.sender with
            workers := t.sender.workers.set i { w with
              stream := { w.stream with delivered := w.stream.delivered + n } } }
          receiver := .running accept totalBytes s' }
  | eof {i : Nat} {w : SendWorker} {accept : ManifestAccept} {totalBytes : UInt64}
      {s s' : Session} (hw : t.sender.workers[i]? = some w) (hshut : w.stream.shut = true)
      (hall : w.stream.delivered = w.stream.written.length)
      (hreceiver : t.receiver = .running accept totalBytes s)
      (h : s.step (c.params totalBytes) (.close i .eof) = some s') :
      Move c t (.eof i) { t with receiver := .running accept totalBytes s' }
  | cut {i : Nat} {how : Closing} {accept : ManifestAccept} {totalBytes : UInt64}
      {s s' : Session} (hreceiver : t.receiver = .running accept totalBytes s)
      (h : s.step (c.params totalBytes) (.close i how) = some s') :
      Move c t (.cut i how) { t with receiver := .running accept totalBytes s' }

theorem sessionStep_eq {c : Parties} {t t' : Transfer} {act : SessionAct}
    (h : t.sessionStep c act = some t') :
    ∃ accept totalBytes s s', t.receiver = .running accept totalBytes s ∧
      s.step (c.params totalBytes) act = some s' ∧
      t' = { t with receiver := .running accept totalBytes s' } := by
  unfold sessionStep at h
  split at h
  · next accept totalBytes s hreceiver =>
      rw [Option.map_eq_some_iff] at h
      obtain ⟨s', hs', rfl⟩ := h
      exact ⟨accept, totalBytes, s, s', hreceiver, hs', rfl⟩
  · cases h

/-- **Inversion of a step of a transfer.** -/
theorem step_moves {c : Parties} {t t' : Transfer} {a : TransferAct} (h : t.step c a = some t') :
    Move c t a t' := by
  have hsession : ∀ act, t.sessionStep c act = some t' →
      (∀ i, (∀ bytes, act ≠ .deliver i bytes) ∧ ∀ how, act ≠ .close i how) →
      (act = .accept → t.taken < t.sender.workers.length) → Move c t (.session act) t' := by
    intro act hact hne htaken
    obtain ⟨accept, totalBytes, s, s', hreceiver, hs', rfl⟩ := sessionStep_eq hact
    refine .session hreceiver hne (fun heq => ?_) hs'
    have := htaken heq
    rwa [taken, hreceiver] at this
  cases a with
  | sender act =>
      cases act with
      | reads body => cases h
      | _ =>
          simp only [step, Option.map_eq_some_iff] at h
          obtain ⟨s, hs, rfl⟩ := h
          exact .sender (by simp) hs
  | reads =>
      simp only [step] at h
      split at h
      · cases h
      · next body hbody =>
          rw [Option.map_eq_some_iff] at h
          obtain ⟨s, hs, rfl⟩ := h
          exact .reads hbody hs
  | sendWorker i io =>
      have hworker : (t.sender.workerStep c.senderConfig.frameSize i io).map
          (fun s => { t with sender := s }) = some t' → Move c t (.sendWorker i io) t' := by
        intro hmap
        rw [Option.map_eq_some_iff] at hmap
        obtain ⟨s, hs, rfl⟩ := hmap
        exact .sendWorker hs
      simp only [step] at h
      split at h
      · cases h
      · split at h
        · split at h
          · exact hworker h
          · cases h
        · exact hworker h
  | hello told =>
      simp only [step] at h
      split at h
      · next hreceiver hbody =>
          cases h
          exact .hello told hreceiver hbody
      · cases h
  | offer ios written =>
      simp only [step] at h
      split at h
      · next hreceiver hbody =>
          split at h
          · next hios =>
              cases h
              exact .offer written hreceiver hbody hios
          · cases h
      · cases h
  | lost error =>
      simp only [step] at h
      split at h
      · next hreceiver =>
          cases h
          exact .lost error (Or.inl hreceiver)
      · next hreceiver =>
          cases h
          exact .lost error (Or.inr ⟨_, hreceiver⟩)
      · cases h
  | session act =>
      cases act with
      | deliver i bytes => cases h
      | close i how => cases h
      | accept =>
          simp only [step] at h
          split at h
          · next htaken => exact hsession _ h (by simp) fun _ => htaken
          · cases h
      | _ => exact hsession _ h (by simp) (by simp)
  | deliver i n =>
      simp only [step] at h
      split at h
      · cases h
      · next w hw =>
          split at h
          · next hn =>
              rw [Option.map_eq_some_iff] at h
              obtain ⟨t1, ht1, rfl⟩ := h
              obtain ⟨accept, totalBytes, s, s', hreceiver, hs', rfl⟩ := sessionStep_eq ht1
              exact .deliver hw hn hreceiver hs'
          · cases h
  | eof i =>
      simp only [step] at h
      split at h
      · cases h
      · next w hw =>
          split at h
          · next hend =>
              obtain ⟨accept, totalBytes, s, s', hreceiver, hs', rfl⟩ := sessionStep_eq h
              exact .eof hw hend.1 hend.2 hreceiver hs'
          · cases h
  | cut i how =>
      obtain ⟨accept, totalBytes, s, s', hreceiver, hs', rfl⟩ := sessionStep_eq h
      exact .cut hreceiver hs'

end Transfer

end AetherLink
