import AetherLink.Core.Io
import AetherLink.Proto.Bitmap
import AetherLink.Proto.Frame

set_option autoImplicit false

/-! # The sender

`run` maps and hashes every source, offers the manifest, builds the work queue from what the receiver
still needs, and then drives one worker per data stream. A worker owns one whole chunk at a time: it
pops it from the shared queue and writes it as a run of frames on its own stream.

`run` (`SenderPc`) and its workers (`SendWorkerPc`) are places in the code, stepped one call at a
time. Releasing mapped pages behind the workers changes no byte they read, and is left out. -/

namespace AetherLink

open Bytes

/-! ## Source files -/

/-- One file the caller wants to send, with what is at its path. -/
structure OutgoingFile where
  path : FilePath
  relativePath : String
  data : List UInt8
  /-- A file's length is a `u64`. -/
  length_lt : data.length < 2 ^ 64

/-- How the system calls of `SourceFile::open` go. -/
structure SourceIo where
  opens : Bool
  stats : Bool
  maps : Bool
  deriving DecidableEq, Repr

/-- A mapped source file. -/
structure SourceFile where
  map : List UInt8
  layout : ChunkLayout
  size_eq : layout.fileSize = map.length

theorem OutgoingFile.size_eq (f : OutgoingFile) {chunkSize : UInt32} {layout : ChunkLayout}
    (h : ChunkLayout.new (UInt64.ofNat f.data.length) chunkSize = .ok layout) :
    layout.fileSize = f.data.length := by
  rw [(ChunkLayout.new_ok h).1, UInt64.toNat_ofNat', Nat.mod_eq_of_lt f.length_lt]

namespace SourceFile

/-- `SourceFile::open`. -/
def openFile (f : OutgoingFile) (chunkSize : UInt32) (io : SourceIo) : Except Error SourceFile :=
  if !io.opens then .error (.io ("opening " ++ display f.path))
  else if !io.stats then .error (.io ("stat " ++ display f.path))
  else match h : ChunkLayout.new (UInt64.ofNat f.data.length) chunkSize with
    | .error e => .error (.wire e)
    | .ok layout =>
        if !io.maps then .error (.io ("mapping " ++ display f.path))
        else .ok { map := f.data, layout := layout, size_eq := f.size_eq h }

/-- The bytes of a chunk, out of the mapping. -/
def chunk (src : SourceFile) (index : Nat) : Except Error (List UInt8) :=
  match src.layout.range index with
  | .error e => .error (.wire e)
  | .ok (offset, len) => .ok (slice src.map offset len)

/-- Hashes every chunk in order. -/
def chunkHashes (blake3 : Blake3) (src : SourceFile) : Except Error (List Hash) :=
  (List.range src.layout.count).mapM fun index => (src.chunk index).map (hashChunk blake3)

/-- What the manifest says about the `i`-th file. -/
def entry (blake3 : Blake3) (f : OutgoingFile) (src : SourceFile) (hashes : List Hash) (i : Nat) :
    FileEntry :=
  { fileId := UInt64.ofNat i
    relativePath := f.relativePath
    sizeBytes := UInt64.ofNat src.layout.fileSize
    rootHash := (rootFromChunkHashes blake3 hashes).1
    chunkHashes := concatHashes hashes }

end SourceFile

/-- Map and hash one source: the source and its manifest entry. -/
def openSource (blake3 : Blake3) (chunkSize : UInt32) (f : OutgoingFile) (io : SourceIo) (i : Nat) :
    Except Error (SourceFile × FileEntry) :=
  match SourceFile.openFile f chunkSize io with
  | .error e => .error e
  | .ok src =>
      match src.chunkHashes blake3 with
      | .error e => .error e
      | .ok hashes => .ok (src, src.entry blake3 f hashes i)

/-- Map and hash every source, counting from `i`. -/
def openSources (blake3 : Blake3) (chunkSize : UInt32) :
    List (OutgoingFile × SourceIo) → Nat → Except Error (List (SourceFile × FileEntry))
  | [], _ => .ok []
  | (f, io) :: rest, i =>
      match openSource blake3 chunkSize f io i with
      | .error e => .error e
      | .ok x =>
          match openSources blake3 chunkSize rest (i + 1) with
          | .error e => .error e
          | .ok xs => .ok (x :: xs)

/-! ## The work queue -/

/-- A chunk assigned to whichever stream picks it up next. -/
structure WorkItem where
  fileIndex : Nat
  chunkIndex : Nat
  deriving DecidableEq, Repr

/-- The bitmap the receiver reports for an entry; none at all means that it holds nothing. -/
def haveBitmap (accept : ManifestAccept) (entry : FileEntry) (count : Nat) :
    Except Error ChunkBitmap :=
  match accept.progress.find? fun p => p.fileId == entry.fileId with
  | none => .ok (ChunkBitmap.new count)
  | some p =>
      match ChunkBitmap.fromBytes p.haveBitmap count with
      | .error e => .error (.wire e)
      | .ok bitmap => .ok bitmap

/-- Queue one chunk, and count its bytes. -/
def queueChunk (fileIndex : Nat) (layout : ChunkLayout) (acc : List WorkItem × UInt64)
    (chunkIndex : Nat) : Except Error (List WorkItem × UInt64) :=
  match layout.range chunkIndex with
  | .error e => .error (.wire e)
  | .ok (_, len) =>
      .ok (acc.1 ++ [{ fileIndex := fileIndex, chunkIndex := chunkIndex }],
        acc.2 + UInt64.ofNat len)

/-- The chunks of half-open ranges, one after the other. -/
def chunksOf (ranges : List (Nat × Nat)) : List Nat :=
  ranges.flatMap fun r => List.range' r.1 (r.2 - r.1)

/-- Queue what the receiver still needs of the offered files, counting from `fileIndex`. -/
def buildQueue (accept : ManifestAccept) :
    List (SourceFile × FileEntry) → Nat → List WorkItem × UInt64 →
      Except Error (List WorkItem × UInt64)
  | [], _, acc => .ok acc
  | (src, entry) :: rest, fileIndex, acc =>
      if entry.fileId ∉ accept.acceptedFileIds then buildQueue accept rest (fileIndex + 1) acc
      else match haveBitmap accept entry src.layout.count with
        | .error e => .error e
        | .ok held =>
            match (chunksOf held.missingRanges).foldlM (queueChunk fileIndex src.layout) acc with
            | .error e => .error e
            | .ok acc' => buildQueue accept rest (fileIndex + 1) acc'

/-! ## State -/

/-- A data stream, from the sender's end. -/
structure Stream where
  /-- every byte written, first to last -/
  written : List UInt8
  /-- how many of them the network has delivered -/
  delivered : Nat
  /-- the sender has shut its direction down -/
  shut : Bool
  deriving DecidableEq

/-- A stream worker's place in its loop. -/
inductive SendWorkerPc where
  /-- about to pop the queue -/
  | popping
  /-- about to write the header of the `n`-th part of the chunk, if there is one -/
  | header (item : WorkItem) (n : Nat)
  /-- about to write the `n`-th part -/
  | part (item : WorkItem) (n : Nat)
  /-- about to add to the bytes sent -/
  | counting (item : WorkItem)
  | reporting (done : UInt64)
  /-- about to flush and shut the stream down -/
  | closing
  /-- reading to the peer's end of file -/
  | draining
  | ended (result : Except Error Unit)

structure SendWorker where
  stream : Stream
  pc : SendWorkerPc

/-- A worker just spawned on a stream whose `Hello` is written. -/
def SendWorker.fresh : SendWorker :=
  { stream := { written := [], delivered := 0, shut := false }, pc := .popping }

/-- The place of `run`. -/
inductive SenderPc where
  | opening
  /-- about to write `Hello` -/
  | greeting
  | offering
  | awaitingAccept
  /-- about to establish this many more streams -/
  | spawning (left : Nat)
  /-- about to await worker `i` -/
  | joining (i : Nat)
  /-- about to read the receiver's confirmation -/
  | confirming
  | returned (result : Except Error UInt64)

structure Sender where
  /-- the sources with their manifest entries -/
  offered : List (SourceFile × FileEntry)
  queue : List WorkItem
  bytesToSend : UInt64
  /-- bytes sent so far -/
  sent : UInt64
  /-- calls of `on_progress`: bytes done and bytes in total -/
  progress : List (UInt64 × UInt64)
  workers : List SendWorker
  /-- control messages written, first to last -/
  messages : List Body
  main : SenderPc

def Sender.init : Sender :=
  { offered := [], queue := [], bytesToSend := 0, sent := 0, progress := [], workers := [],
    messages := [], main := .opening }

/-! ## Stream workers -/

/-- How a call goes: it does its work, or it fails, and a write then leaves this many of its bytes on
    the stream. -/
inductive SendIo where
  | next
  | fail (written : Nat)
  deriving DecidableEq, Repr

/-- What one step of a worker does besides moving it. -/
inductive SendEffect where
  | quiet
  | pop
  | write (bytes : List UInt8)
  | shut
  | count (bytes : UInt64)
  | report (done : UInt64)
  deriving DecidableEq

/-- The `n`-th piece of `payload.chunks(frame_size)`. -/
def partOf (frameSize : Nat) (payload : List UInt8) (n : Nat) : Option (List UInt8) :=
  if n * frameSize < payload.length then some (slice payload (n * frameSize) frameSize) else none

/-- The header in front of the `n`-th part of a chunk that starts at `offset`. -/
def partHeader (frameSize : Nat) (item : WorkItem) (offset n : Nat) (part : List UInt8) :
    FrameHeader :=
  .new .fileData (UInt64.ofNat item.fileIndex) (UInt64.ofNat (offset + n * frameSize))
    (UInt32.ofNat part.length)

/-- What a task's owner sees of a panic in it. -/
def panicked : Error :=
  .io "stream worker panicked"

/-- A popped item's source, chunk offset and payload. -/
def chunkOf (offered : List (SourceFile × FileEntry)) (item : WorkItem) :
    Except Error (Nat × List UInt8) :=
  match offered[item.fileIndex]? with
  | none => .error panicked
  | some (src, _) =>
      match src.layout.range item.chunkIndex with
      | .error e => .error (.wire e)
      | .ok (offset, _) => (src.chunk item.chunkIndex).map fun payload => (offset, payload)

/-- One step of a worker: its next place and its effect. -/
def SendWorkerPc.step (frameSize : UInt32) (s : Sender) :
    SendWorkerPc → SendIo → Option (SendWorkerPc × SendEffect)
  | .popping, .next =>
      match s.queue with
      | [] => some (.closing, .quiet)
      | item :: _ =>
          match chunkOf s.offered item with
          | .error e => some (.ended (.error e), .pop)
          | .ok _ =>
              -- `chunks(0)` panics
              if frameSize = 0 then some (.ended (.error panicked), .pop)
              else some (.header item 0, .pop)
  | .header item n, io =>
      match chunkOf s.offered item with
      | .error _ => none
      | .ok (offset, payload) =>
          match partOf frameSize.toNat payload n, io with
          | none, .next => some (.counting item, .quiet)
          | none, .fail _ => none
          | some bytes, .next =>
              some (.part item n,
                .write (partHeader frameSize.toNat item offset n bytes).encode)
          | some bytes, .fail k =>
              some (.ended (.error (.io "writing frame header")),
                .write ((partHeader frameSize.toNat item offset n bytes).encode.take k))
  | .part item n, io =>
      match chunkOf s.offered item with
      | .error _ => none
      | .ok (_, payload) =>
          match partOf frameSize.toNat payload n, io with
          | none, _ => none
          | some bytes, .next => some (.header item (n + 1), .write bytes)
          | some bytes, .fail k =>
              some (.ended (.error (.io "writing frame payload")), .write (bytes.take k))
  | .counting item, .next =>
      match chunkOf s.offered item with
      | .error _ => none
      | .ok (_, payload) =>
          let len := UInt64.ofNat payload.length
          some (.reporting (s.sent + len), .count len)
  | .reporting done, .next => some (.popping, .report done)
  | .closing, .next => some (.draining, .shut)
  | .closing, .fail _ => some (.ended (.error (.io "shutting down")), .quiet)
  | .draining, _ => some (.ended (.ok ()), .quiet)
  | _, _ => none

/-- The stream after an effect of its own worker. -/
def SendEffect.onStream (stream : Stream) : SendEffect → Stream
  | .write bytes => { stream with written := stream.written ++ bytes }
  | .shut => { stream with shut := true }
  | _ => stream

namespace Sender

/-- What the workers share after an effect. -/
def apply (s : Sender) (e : SendEffect) : Sender :=
  { s with
    queue := match e with
      | .pop => s.queue.tail
      | _ => s.queue
    sent := match e with
      | .count bytes => s.sent + bytes
      | _ => s.sent
    progress := match e with
      | .report done => s.progress ++ [(done, s.bytesToSend)]
      | _ => s.progress }

/-- A step of worker `i`, with its effect. -/
def workerStep (frameSize : UInt32) (s : Sender) (i : Nat) (io : SendIo) : Option Sender :=
  match s.workers[i]? with
  | none => none
  | some w =>
      match w.pc.step frameSize s io with
      | none => none
      | some (pc, e) =>
          some { s.apply e with
            workers := s.workers.set i { stream := e.onStream w.stream, pc := pc } }

/-! ## `run` -/

/-- What can happen next to `run`. -/
inductive Act where
  /-- the sources are opened, with these outcomes of the calls -/
  | opens (ios : List SourceIo)
  | next
  /-- a control message arrives -/
  | reads (body : Body)
  /-- the call `run` is in fails -/
  | fail (error : Error)

/-- The reply `run` did not expect. -/
def unexpected (expected : String) (body : Body) : Error :=
  .protocol ("expected " ++ expected ++ ", got " ++ body.variant)

/-- The reply to the offer. -/
def onReply (config : Config) (s : Sender) : Body → Sender
  | .accept a =>
      match buildQueue a s.offered 0 ([], 0) with
      | .error e => { s with main := .returned (.error e) }
      | .ok (queue, bytesToSend) =>
          { s with
            queue := queue
            bytesToSend := bytesToSend
            main := .spawning config.streamCount.toNat }
  | .abort reason => { s with main := .returned (.error (.peerAborted reason)) }
  | other => { s with main := .returned (.error (unexpected "Accept" other)) }

/-- The receiver's word once every worker has ended: `run`'s result. -/
def confirmation (s : Sender) : Body → Except Error UInt64
  | .complete bytesWritten => .ok (max bytesWritten s.bytesToSend)
  | .abort reason => .error (.peerAborted reason)
  | other => .error (unexpected "Complete" other)

/-- One step of `run`. -/
def mainStep (blake3 : Blake3) (config : Config) (files : List OutgoingFile) (s : Sender) :
    Act → Option Sender
  | .opens ios =>
      match s.main with
      | .opening =>
          if ios.length = files.length then
            match openSources blake3 config.chunkSize (files.zip ios) 0 with
            | .error e => some { s with main := .returned (.error e) }
            | .ok offered => some { s with offered := offered, main := .greeting }
          else none
      | _ => none
  | .next =>
      match s.main with
      | .greeting => some { s with
          messages := s.messages ++ [.hello PROTOCOL_VERSION.toUInt32 config.streamCount.toUInt32]
          main := .offering }
      | .offering => some { s with
          messages := s.messages ++
            [.offer { chunkSize := config.chunkSize, files := s.offered.map Prod.snd }]
          main := .awaitingAccept }
      | .spawning 0 => some { s with main := .joining 0 }
      | .spawning (left + 1) => some { s with
          workers := s.workers ++ [SendWorker.fresh]
          main := .spawning left }
      | .joining i =>
          match s.workers[i]? with
          | none => some { s with main := .confirming }
          | some w =>
              match w.pc with
              | .ended (.ok ()) => some { s with main := .joining (i + 1) }
              | .ended (.error e) => some { s with main := .returned (.error e) }
              | _ => none
      | _ => none
  | .reads body =>
      match s.main with
      | .awaitingAccept => some (s.onReply config body)
      | .confirming => some { s with main := .returned (s.confirmation body) }
      | _ => none
  | .fail error =>
      match s.main with
      | .greeting | .offering | .awaitingAccept | .spawning (_ + 1) | .confirming =>
          some { s with main := .returned (.error error) }
      | _ => none

/-! ### What a step of `run` does -/

/-- The ways `run` goes on. -/
inductive MainMove (blake3 : Blake3) (config : Config) (files : List OutgoingFile) (s : Sender) :
    Act → Sender → Prop where
  | opened {ios : List SourceIo} {offered : List (SourceFile × FileEntry)}
      (hmain : s.main = .opening) (hlen : ios.length = files.length)
      (hoffered : openSources blake3 config.chunkSize (files.zip ios) 0 = .ok offered) :
      MainMove blake3 config files s (.opens ios) { s with offered := offered, main := .greeting }
  | notOpened {ios : List SourceIo} {e : Error} (hmain : s.main = .opening) :
      MainMove blake3 config files s (.opens ios) { s with main := .returned (.error e) }
  | greets (hmain : s.main = .greeting) : MainMove blake3 config files s .next { s with
      messages := s.messages ++ [.hello PROTOCOL_VERSION.toUInt32 config.streamCount.toUInt32]
      main := .offering }
  | offers (hmain : s.main = .offering) : MainMove blake3 config files s .next { s with
      messages := s.messages ++
        [.offer { chunkSize := config.chunkSize, files := s.offered.map Prod.snd }]
      main := .awaitingAccept }
  | spawns {left : Nat} (hmain : s.main = .spawning (left + 1)) :
      MainMove blake3 config files s .next { s with
        workers := s.workers ++ [SendWorker.fresh]
        main := .spawning left }
  | spawned (hmain : s.main = .spawning 0) :
      MainMove blake3 config files s .next { s with main := .joining 0 }
  | joins {i : Nat} {w : SendWorker} (hmain : s.main = .joining i) (hw : s.workers[i]? = some w)
      (hpc : w.pc = .ended (.ok ())) :
      MainMove blake3 config files s .next { s with main := .joining (i + 1) }
  | workerFailed {i : Nat} {w : SendWorker} {e : Error} (hmain : s.main = .joining i)
      (hw : s.workers[i]? = some w) (hpc : w.pc = .ended (.error e)) :
      MainMove blake3 config files s .next { s with main := .returned (.error e) }
  | joined {i : Nat} (hmain : s.main = .joining i) (hw : s.workers[i]? = none) :
      MainMove blake3 config files s .next { s with main := .confirming }
  | accepted {a : ManifestAccept} {queue : List WorkItem} {bytesToSend : UInt64}
      (hmain : s.main = .awaitingAccept)
      (hqueue : buildQueue a s.offered 0 ([], 0) = .ok (queue, bytesToSend)) :
      MainMove blake3 config files s (.reads (.accept a)) { s with
        queue := queue
        bytesToSend := bytesToSend
        main := .spawning config.streamCount.toNat }
  | refused {body : Body} {e : Error} (hmain : s.main = .awaitingAccept) :
      MainMove blake3 config files s (.reads body) { s with main := .returned (.error e) }
  | confirms {body : Body} (hmain : s.main = .confirming) :
      MainMove blake3 config files s (.reads body) { s with main := .returned (s.confirmation body) }
  | fails {error : Error} (hmain : s.main ≠ .opening) :
      MainMove blake3 config files s (.fail error) { s with main := .returned (.error error) }

theorem onReply_moves {blake3 : Blake3} {config : Config} {files : List OutgoingFile} {s : Sender}
    (hmain : s.main = .awaitingAccept) (body : Body) :
    MainMove blake3 config files s (.reads body) (s.onReply config body) := by
  cases body with
  | accept a =>
      simp only [onReply]
      split
      · exact .refused hmain
      · next hqueue => exact .accepted hmain hqueue
  | _ => exact .refused hmain

theorem mainStep_moves {blake3 : Blake3} {config : Config} {files : List OutgoingFile}
    {s s' : Sender} {act : Act} (h : s.mainStep blake3 config files act = some s') :
    MainMove blake3 config files s act s' := by
  cases act with
  | opens ios =>
      simp only [mainStep] at h
      split at h
      · next hmain =>
          split at h
          · next hlen =>
              split at h
              · cases h
                exact .notOpened hmain
              · next hoffered =>
                  cases h
                  exact .opened hmain hlen hoffered
          · cases h
      · cases h
  | next =>
      simp only [mainStep] at h
      split at h
      · next hmain =>
          cases h
          exact .greets hmain
      · next hmain =>
          cases h
          exact .offers hmain
      · next hmain =>
          cases h
          exact .spawned hmain
      · next hmain =>
          cases h
          exact .spawns hmain
      · next hmain =>
          split at h
          · next hw =>
              cases h
              exact .joined hmain hw
          · next hw =>
              split at h
              · next hpc =>
                  cases h
                  exact .joins hmain hw hpc
              · next hpc =>
                  cases h
                  exact .workerFailed hmain hw hpc
              · cases h
      · cases h
  | reads body =>
      simp only [mainStep] at h
      split at h
      · next hmain =>
          cases h
          exact onReply_moves hmain body
      · next hmain =>
          cases h
          exact .confirms hmain
      · cases h
  | fail error =>
      simp only [mainStep] at h
      split at h
      all_goals cases h
      all_goals
        next hmain => exact .fails (by simp [hmain])

end Sender

end AetherLink
