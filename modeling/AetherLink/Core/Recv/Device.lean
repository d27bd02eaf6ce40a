import AetherLink.Core.Recv.Session

set_option autoImplicit false

/-! # Receiving, one session after another

What outlives a receive session is the disk. A device receives one session after another, each with
an offer and a configuration of its own; the process can be stopped between any two steps, and the
power can fail, which takes writes that no fsync has covered with it. An offer that `run` refuses
leaves the disk as the refusal found it; a process killed while it goes over an offer has dealt with
a prefix of it, which is an offer too.

Stopping ends the workers of the session with it. A worker that an error return of `run` has left
running never runs beside the next session here; that is for receptions in one process. -/

namespace AetherLink

open Storage

/-- What a session is started on: the offer with the outcomes of its system calls, and the
    receiver's side of it. -/
structure Offering where
  config : Config
  outputDir : FilePath
  chunkSize : UInt32
  entries : List (FileEntry × EntryIo)
  streamCount : UInt32

inductive Device where
  | idle (disk : FileSystem)
  | receiving (p : Params) (session : Session)

inductive DeviceAct where
  /-- a sender connects and makes its offer -/
  | offer (o : Offering)
  /-- the session takes a step -/
  | session (a : SessionAct)
  /-- the process ends, or is killed -/
  | stop
  /-- of the writes to inode `i` that no fsync has covered, those that `mask i` selects survive -/
  | powerLoss (mask : Nat → Nat → Bool)

/-- The offer loop on a disk. -/
def Offering.answer (blake3 : Blake3) (o : Offering) (disk : FileSystem) :
    Except Refused OfferState :=
  offerLoop blake3 o.config o.outputDir o.chunkSize (.init disk) o.entries

namespace Device

def disk : Device → FileSystem
  | .idle disk => disk
  | .receiving _ s => s.env.disk

/-- Go over an offer: a session if every entry is accepted, and the disk the refusal left if not. -/
def start (blake3 : Blake3) (o : Offering) (disk : FileSystem) : Device :=
  match o.answer blake3 disk with
  | .error r => .idle r.disk
  | .ok st =>
      .receiving
        { blake3 := blake3
          totalBytes := st.totalBytes
          checkpointBytes := o.config.checkpointBytes }
        (Session.start st o.streamCount)

def step (blake3 : Blake3) : Device → DeviceAct → Option Device
  | .idle disk, .offer o => some (start blake3 o disk)
  | .receiving p s, .session a => (s.step p a).map (.receiving p)
  | .receiving _ s, .stop => some (.idle s.env.disk)
  | w, .powerLoss mask => some (.idle (w.disk.crash mask))
  | _, _ => none

/-- The devices `w` can become. -/
def runs (blake3 : Blake3) (w : Device) (as : List DeviceAct) : Option Device :=
  Run.runs (step blake3) w as

end Device

/-- Everything a step of a device can be. -/
inductive DeviceMove (blake3 : Blake3) : Device → DeviceAct → Device → Prop
  | refused {disk : FileSystem} {o : Offering} {r : Refused} (h : o.answer blake3 disk = .error r) :
      DeviceMove blake3 (.idle disk) (.offer o) (.idle r.disk)
  | accepted {disk : FileSystem} {o : Offering} {st : OfferState}
      (h : o.answer blake3 disk = .ok st) :
      DeviceMove blake3 (.idle disk) (.offer o) (.receiving
        { blake3 := blake3, totalBytes := st.totalBytes,
          checkpointBytes := o.config.checkpointBytes } (Session.start st o.streamCount))
  | session {p : Params} {s s' : Session} {a : SessionAct} {e : Effect}
      (heff : s.stepEffect p a = some (s', e)) (h : SessionMove p s s' e) :
      DeviceMove blake3 (.receiving p s) (.session a) (.receiving p s')
  | stops (p : Params) (s : Session) :
      DeviceMove blake3 (.receiving p s) .stop (.idle s.env.disk)
  | losesPower (w : Device) (mask : Nat → Nat → Bool) :
      DeviceMove blake3 w (.powerLoss mask) (.idle (w.disk.crash mask))

/-- **Inversion of a device step.** -/
theorem Device.step_moves {blake3 : Blake3} {w w' : Device} {a : DeviceAct}
    (h : w.step blake3 a = some w') : DeviceMove blake3 w a w' := by
  unfold step at h
  split at h
  · cases h
    unfold start
    split
    · next r hr => exact .refused hr
    · next st hst => exact .accepted hst
  · rw [Option.map_eq_some_iff] at h
    obtain ⟨s', hs', rfl⟩ := h
    obtain ⟨e, heff, hmove⟩ := Session.step_moves hs'
    exact .session heff hmove
  · cases h
    exact .stops _ _
  · cases h
    exact .losesPower _ _
  · cases h

end AetherLink
