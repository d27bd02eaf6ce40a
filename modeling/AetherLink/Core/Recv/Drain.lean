import AetherLink.Core.Recv.Checkpoint
import AetherLink.Proto.Frame

set_option autoImplicit false

/-! # Stream workers

`drain_stream` reads frames until the peer closes the stream, accumulates one chunk at a time,
verifies it, writes it, marks it in the bitmap and checkpoints when enough has been written. A worker
is a place in that loop (`WorkerPc`) with its locals; bytes arrive in `inbox`. A worker on another
stream can act between any two of its steps. -/

namespace AetherLink

open Bytes

/-- The chunk a worker is accumulating:
    `(file_id, chunk_index, chunk_start_offset, expected_len)`. -/
structure Current where
  fileId : UInt64
  chunkIndex : Nat
  start : Nat
  expectedLen : Nat
  deriving DecidableEq

/-- How a stream ends: with an end of file, which a connection cut without a goodbye shows as too, or
    with an error. -/
inductive Closing where
  | eof
  | failed
  deriving DecidableEq, Repr

/-- A worker's place in the loop of `drain_stream`. -/
inductive WorkerPc where
  /-- about to read a frame header -/
  | header
  /-- about to read a payload of this many bytes -/
  | payload (length : Nat)
  /-- `verify_and_write`: about to hash the chunk -/
  | verify
  /-- `verify_and_write`: this much of the chunk is written -/
  | write (done : Nat)
  /-- about to set the bit -/
  | mark
  /-- about to add to the counter -/
  | count (complete : Bool)
  /-- about to report `done` bytes -/
  | report (complete : Bool) (done : UInt64)
  /-- about to report the file as completed -/
  | announce
  /-- `checkpoint_if_due`: about to add to the bytes since the last checkpoint -/
  | due
  | tryLock
  | reset
  | checkpoint (pc : CheckpointPc)
  /-- about to drop the checkpoint lock -/
  | release (result : Except Error Unit)
  | ended (result : Except Error Unit)

/-- A stream worker with its stream. -/
structure Worker where
  /-- bytes received and not yet read -/
  inbox : List UInt8
  closed : Option Closing
  buf : List UInt8
  current : Option Current
  pc : WorkerPc

/-- A worker just spawned on a stream whose `Hello` has been read. -/
def Worker.fresh : Worker :=
  { inbox := [], closed := none, buf := [], current := none, pc := .header }

/-! ## Frames -/

/-- A frame that arrives with no chunk in progress must begin one at its own offset. -/
def startChunk (state : FileState) (header : FrameHeader) : Except Error Current :=
  match state.layout.indexOf header.offset.toNat with
  | .error e => .error (.wire e)
  | .ok chunkIndex =>
      match state.layout.range chunkIndex with
      | .error e => .error (.wire e)
      | .ok (start, expectedLen) =>
          if header.offset.toNat ≠ start then
            .error (.protocol ("chunk must begin at its own offset; got " ++
              toString header.offset.toNat ++ " expected " ++ toString start))
          else .ok { fileId := header.fileId, chunkIndex := chunkIndex, start := start,
                     expectedLen := expectedLen }

/-- The checks on a frame for the chunk in progress, of which `filled` bytes are there. -/
def admitFrame (c : Current) (filled : Nat) (header : FrameHeader) : Except Error Unit :=
  if header.fileId ≠ c.fileId then .error (.protocol "stream interleaved files mid-chunk")
  else if header.offset.toNat ≠ c.start + filled then
    .error (.protocol ("out-of-order frame at offset " ++ toString header.offset.toNat ++
      ", expected " ++ toString (c.start + filled)))
  else if c.expectedLen < filled + header.length.toNat then
    .error (.protocol "frame overruns its chunk")
  else .ok ()

/-- A data frame's header: the chunk it belongs to and what of it is already there. -/
def acceptFrame (files : Files) (current : Option Current) (buf : List UInt8)
    (header : FrameHeader) : Except Error (Current × List UInt8) :=
  match files.lookup header.fileId with
  | none => .error (.protocol ("unknown file id " ++ toString header.fileId.toNat))
  | some state =>
      let opened : Except Error (Current × List UInt8) := match current with
        | some c => .ok (c, buf)
        | none => (startChunk state header).map fun c => (c, [])
      match opened with
      | .error e => .error e
      | .ok (c, buf) =>
          match admitFrame c buf.length header with
          | .error e => .error e
          | .ok () => .ok (c, buf)

namespace Worker

/-- The worker ends. -/
def stop (w : Worker) (result : Except Error Unit) : Worker :=
  { w with pc := .ended result }

/-- The chunk is done with: back to the next header. -/
def finishChunk (w : Worker) : Worker :=
  { w with buf := [], current := none, pc := .header }

/-- Read a frame header, or find the stream closed. -/
def readHeader (files : Files) (w : Worker) : Option Worker :=
  if HEADER_LEN ≤ w.inbox.length then
    let w' := { w with inbox := w.inbox.drop HEADER_LEN }
    match FrameHeader.decode (w.inbox.take HEADER_LEN) with
    | .error e => some (w'.stop (.error (.wire e)))
    | .ok header =>
        match header.msgType with
        | .keepalive => some w'
        | .fileData =>
            match acceptFrame files w.current w.buf header with
            | .error e => some (w'.stop (.error e))
            | .ok (c, buf) =>
                some { w' with
                  current := some c, buf := buf, pc := .payload header.length.toNat }
        | .control => some (w'.stop (.error (.protocol "unexpected Control on a data stream")))
        | .fileEnd => some (w'.stop (.error (.protocol "unexpected FileEnd on a data stream")))
  else match w.closed with
    | none => none
    | some .eof =>
        some (w.stop (if w.current.isSome then .error (.incomplete "stream closed mid-chunk")
          else .ok ()))
    | some .failed => some (w.stop (.error (.io "reading frame header")))

/-- Read the payload of the frame whose header has just been read. -/
def readPayload (w : Worker) (c : Current) (length : Nat) : Option Worker :=
  if length ≤ w.inbox.length then
    let buf := w.buf ++ w.inbox.take length
    some { w with
      inbox := w.inbox.drop length
      buf := buf
      pc := if buf.length = c.expectedLen then .verify else .header }
  else match w.closed with
    | none => none
    | some _ => some (w.stop (.error (.io "reading frame payload")))

/-- One step on the chunk `c` of the file `s`, at a place past the frame header. -/
def stepChunk (p : Params) (env : Env) (w : Worker) (c : Current) (s : FileState) :
    WorkerPc → IoAct → Option (Worker × Effect)
  | .payload length, .next => (w.readPayload c length).map fun w' => (w', .quiet)
  | .verify, .next =>
      match s.chunkHashes[c.chunkIndex]? with
      | none => none
      | some expected =>
          if hashChunk p.blake3 w.buf ≠ expected then
            some (w.stop (.error (.chunkVerificationFailed c.start)), .quiet)
          else some ({ w with pc := .write 0 }, .quiet)
  | .write done, .write n =>
      if 0 < n ∧ done + n ≤ w.buf.length then
        some ({ w with pc := .write (done + n) },
          .pwrite s.sink.ino (c.start + done) (slice w.buf done n))
      else none
  | .write done, .next =>
      if done = w.buf.length then some ({ w with pc := .mark }, .quiet) else none
  | .write _, .fail =>
      some (w.stop (.error (.io ("writing at offset " ++ toString c.start))), .quiet)
  | .mark, .next =>
      match s.bitmap.set c.chunkIndex with
      | .error e => some (w.stop (.error (.wire e)), .quiet)
      | .ok bitmap =>
          some ({ w with pc := .count bitmap.isComplete }, .setBit c.fileId c.chunkIndex)
  | .count complete, .next =>
      let len := UInt64.ofNat c.expectedLen
      some ({ w with pc := .report complete (env.counter + len) }, .count len)
  | .report complete done, .next =>
      some ({ w with pc := if complete then .announce else .due },
        .notify (.progress done p.totalBytes))
  | .announce, .next =>
      some ({ w with pc := .due }, .notify (.fileCompleted c.fileId s.sink.path))
  | .due, .next =>
      if p.checkpointBytes = 0 then some (w.finishChunk, .quiet)
      else
        let since := s.sinceCheckpoint + UInt64.ofNat c.expectedLen
        some (if since < p.checkpointBytes then w.finishChunk else { w with pc := .tryLock },
          .setSince c.fileId since)
  | .tryLock, .next =>
      if s.checkpointing then some (w.finishChunk, .quiet)
      else some ({ w with pc := .reset }, .setLock c.fileId true)
  | .reset, .next => some ({ w with pc := .checkpoint .snapshot }, .setSince c.fileId 0)
  | .checkpoint pc, io =>
      match checkpointStep p.blake3 env.disk s pc io with
      | none => none
      | some (.goOn pc', e) => some ({ w with pc := .checkpoint pc' }, e)
      | some (.done result, e) => some ({ w with pc := .release result }, e)
  | .release result, .next =>
      some (match result with
        | .ok () => w.finishChunk
        | .error e => w.stop (.error e), .setLock c.fileId false)
  | _, _ => none

/-- One step of a worker: the worker after it and what it does to the shared state. -/
def step (p : Params) (env : Env) (w : Worker) (io : IoAct) : Option (Worker × Effect) :=
  match w.pc with
  | .ended _ => none
  | .header =>
      if io = .next then (w.readHeader env.files).map fun w' => (w', .quiet) else none
  | pc =>
      match w.current with
      | none => none
      | some c =>
          match env.files.lookup c.fileId with
          | none => none
          | some s => w.stepChunk p env c s pc io

end Worker

/-! ## What a worker's step can be -/

/-- Whether the worker is inside the checkpoint lock. -/
def WorkerPc.Locked : WorkerPc → Prop
  | .reset => True
  | .checkpoint _ => True
  | .release _ => True
  | _ => False

/-- Everything a step of a worker can be: the worker after it, and the effect. -/
inductive WorkerMove (p : Params) (env : Env) (w : Worker) : Worker → Effect → Prop
  /-- a keepalive frame -/
  | skips {h : FrameHeader} (hpc : w.pc = .header) (hlen : HEADER_LEN ≤ w.inbox.length)
      (hdec : FrameHeader.decode (w.inbox.take HEADER_LEN) = .ok h)
      (htype : h.msgType = .keepalive) :
      WorkerMove p env w { w with inbox := w.inbox.drop HEADER_LEN } .quiet
  /-- a data frame's header -/
  | opens {h : FrameHeader} {c : Current} {buf : List UInt8} (hpc : w.pc = .header)
      (hlen : HEADER_LEN ≤ w.inbox.length)
      (hdec : FrameHeader.decode (w.inbox.take HEADER_LEN) = .ok h)
      (htype : h.msgType = .fileData)
      (hacc : acceptFrame env.files w.current w.buf h = .ok (c, buf)) :
      WorkerMove p env w
        { w with inbox := w.inbox.drop HEADER_LEN, current := some c, buf := buf,
                 pc := .payload h.length.toNat } .quiet
  /-- the end of the stream, between chunks -/
  | closes (hpc : w.pc = .header) (hshort : w.inbox.length < HEADER_LEN)
      (heof : w.closed = some .eof) (hcur : w.current = none) :
      WorkerMove p env w (w.stop (.ok ())) .quiet
  /-- an error outside the checkpoint lock -/
  | fails (inbox : List UInt8) (e : Error) (hpc : ¬ w.pc.Locked) (hrun : ∀ r, w.pc ≠ .ended r) :
      WorkerMove p env w ({ w with inbox := inbox }.stop (.error e)) .quiet
  | buffers {c : Current} {n : Nat} (hpc : w.pc = .payload n) (hcur : w.current = some c)
      (hn : n ≤ w.inbox.length) :
      WorkerMove p env w
        { w with inbox := w.inbox.drop n, buf := w.buf ++ w.inbox.take n,
                 pc := if (w.buf ++ w.inbox.take n).length = c.expectedLen then .verify
                   else .header } .quiet
  | verifies {c : Current} {s : FileState} (hpc : w.pc = .verify) (hcur : w.current = some c)
      (hs : env.files.lookup c.fileId = some s)
      (hdigest : s.chunkHashes[c.chunkIndex]? = some (hashChunk p.blake3 w.buf)) :
      WorkerMove p env w { w with pc := .write 0 } .quiet
  | writes {c : Current} {s : FileState} {done n : Nat} (hpc : w.pc = .write done)
      (hcur : w.current = some c) (hs : env.files.lookup c.fileId = some s) (hn : 0 < n)
      (hfits : done + n ≤ w.buf.length) :
      WorkerMove p env w { w with pc := .write (done + n) }
        (.pwrite s.sink.ino (c.start + done) (slice w.buf done n))
  | written (hpc : w.pc = .write w.buf.length) :
      WorkerMove p env w { w with pc := .mark } .quiet
  | marks {c : Current} {s : FileState} {bitmap : ChunkBitmap} (hpc : w.pc = .mark)
      (hcur : w.current = some c) (hs : env.files.lookup c.fileId = some s)
      (hset : s.bitmap.set c.chunkIndex = .ok bitmap) :
      WorkerMove p env w { w with pc := .count bitmap.isComplete }
        (.setBit c.fileId c.chunkIndex)
  | counts {c : Current} {complete : Bool} (hpc : w.pc = .count complete)
      (hcur : w.current = some c) :
      WorkerMove p env w
        { w with pc := .report complete (env.counter + UInt64.ofNat c.expectedLen) }
        (.count (UInt64.ofNat c.expectedLen))
  | reports {complete : Bool} {done : UInt64} (hpc : w.pc = .report complete done) :
      WorkerMove p env w { w with pc := if complete then .announce else .due }
        (.notify (.progress done p.totalBytes))
  | announces {c : Current} {s : FileState} (hpc : w.pc = .announce) (hcur : w.current = some c)
      (hs : env.files.lookup c.fileId = some s) :
      WorkerMove p env w { w with pc := .due } (.notify (.fileCompleted c.fileId s.sink.path))
  /-- checkpointing is switched off -/
  | notDue (hpc : w.pc = .due) (hoff : p.checkpointBytes = 0) :
      WorkerMove p env w w.finishChunk .quiet
  | notYet {c : Current} {s : FileState} (hpc : w.pc = .due) (hcur : w.current = some c)
      (hs : env.files.lookup c.fileId = some s)
      (hlt : s.sinceCheckpoint + UInt64.ofNat c.expectedLen < p.checkpointBytes) :
      WorkerMove p env w w.finishChunk
        (.setSince c.fileId (s.sinceCheckpoint + UInt64.ofNat c.expectedLen))
  | comesDue {c : Current} {s : FileState} (hpc : w.pc = .due) (hcur : w.current = some c)
      (hs : env.files.lookup c.fileId = some s)
      (hge : ¬ s.sinceCheckpoint + UInt64.ofNat c.expectedLen < p.checkpointBytes) :
      WorkerMove p env w { w with pc := .tryLock }
        (.setSince c.fileId (s.sinceCheckpoint + UInt64.ofNat c.expectedLen))
  | lockTaken {c : Current} {s : FileState} (hpc : w.pc = .tryLock) (hcur : w.current = some c)
      (hs : env.files.lookup c.fileId = some s) (htaken : s.checkpointing = true) :
      WorkerMove p env w w.finishChunk .quiet
  | locks {c : Current} {s : FileState} (hpc : w.pc = .tryLock) (hcur : w.current = some c)
      (hs : env.files.lookup c.fileId = some s) (hfree : s.checkpointing = false) :
      WorkerMove p env w { w with pc := .reset } (.setLock c.fileId true)
  | resets {c : Current} (hpc : w.pc = .reset) (hcur : w.current = some c) :
      WorkerMove p env w { w with pc := .checkpoint .snapshot } (.setSince c.fileId 0)
  | checkpoints {c : Current} {s : FileState} {pc pc' : CheckpointPc} {e : Effect}
      (hpc : w.pc = .checkpoint pc) (hcur : w.current = some c)
      (hs : env.files.lookup c.fileId = some s)
      (hmove : CheckpointMove p.blake3 env.disk s pc (.goOn pc') e) :
      WorkerMove p env w { w with pc := .checkpoint pc' } e
  | checkpointed {c : Current} {s : FileState} {pc : CheckpointPc} {r : Except Error Unit}
      {e : Effect} (hpc : w.pc = .checkpoint pc) (hcur : w.current = some c)
      (hs : env.files.lookup c.fileId = some s)
      (hmove : CheckpointMove p.blake3 env.disk s pc (.done r) e) :
      WorkerMove p env w { w with pc := .release r } e
  | releases {c : Current} (hpc : w.pc = .release (.ok ())) (hcur : w.current = some c) :
      WorkerMove p env w w.finishChunk (.setLock c.fileId false)
  | givesUp {c : Current} {err : Error} (hpc : w.pc = .release (.error err))
      (hcur : w.current = some c) :
      WorkerMove p env w (w.stop (.error err)) (.setLock c.fileId false)

namespace Worker

variable {p : Params} {env : Env} {w w' : Worker} {e : Effect} {io : IoAct}

theorem readHeader_moves (hpc : w.pc = .header) (h : w.readHeader env.files = some w') :
    WorkerMove p env w w' .quiet := by
  have hout : ¬ w.pc.Locked := by simp [hpc, WorkerPc.Locked]
  have hrun : ∀ r, w.pc ≠ .ended r := by simp [hpc]
  unfold readHeader at h
  split at h
  · next hlen =>
      simp only at h
      split at h
      · cases h
        exact .fails _ _ hout hrun
      · next header hdec =>
          split at h
          · next htype =>
              cases h
              exact .skips hpc hlen hdec htype
          · next htype =>
              split at h
              · cases h
                exact .fails _ _ hout hrun
              · next c buf hacc =>
                  cases h
                  exact .opens hpc hlen hdec htype hacc
          · cases h
            exact .fails _ _ hout hrun
          · cases h
            exact .fails _ _ hout hrun
  · next hshort =>
      split at h
      · cases h
      · next heof =>
          cases hcur : w.current with
          | none =>
              simp only [hcur, Option.isSome_none, Bool.false_eq_true, if_false,
                Option.some.injEq] at h
              subst h
              exact .closes hpc (Nat.not_le.1 hshort) heof hcur
          | some c =>
              simp only [hcur, Option.isSome_some, if_true, Option.some.injEq] at h
              subst h
              exact .fails w.inbox _ hout hrun
      · cases h
        exact .fails w.inbox _ hout hrun

theorem stepChunk_moves {c : Current} {s : FileState} (hcur : w.current = some c)
    (hs : env.files.lookup c.fileId = some s)
    (h : w.stepChunk p env c s w.pc io = some (w', e)) : WorkerMove p env w w' e := by
  unfold stepChunk at h
  split at h
  · next n hpc =>
      rw [Option.map_eq_some_iff] at h
      obtain ⟨w1, hread, heq⟩ := h
      cases heq
      unfold readPayload at hread
      split at hread
      · next hn =>
          cases hread
          exact .buffers hpc hcur hn
      · split at hread
        · cases hread
        · cases hread
          exact .fails w.inbox _ (by simp [hpc, WorkerPc.Locked]) (by simp [hpc])
  · next hpc =>
      split at h
      · cases h
      · next expected hexp =>
          split at h
          · cases h
            exact .fails w.inbox _ (by simp [hpc, WorkerPc.Locked]) (by simp [hpc])
          · next hd =>
              cases h
              exact .verifies hpc hcur hs (by rw [hexp, not_not.1 hd])
  · next done n hpc =>
      split at h
      · next hn =>
          cases h
          exact .writes hpc hcur hs hn.1 hn.2
      · cases h
  · next done hpc =>
      split at h
      · next hd =>
          cases h
          exact .written (hd ▸ hpc)
      · cases h
  · next hpc =>
      cases h
      exact .fails w.inbox _ (by simp [hpc, WorkerPc.Locked]) (by simp [hpc])
  · next hpc =>
      split at h
      · cases h
        exact .fails w.inbox _ (by simp [hpc, WorkerPc.Locked]) (by simp [hpc])
      · next bitmap hset =>
          cases h
          exact .marks hpc hcur hs hset
  · next hpc =>
      cases h
      exact .counts hpc hcur
  · next hpc =>
      cases h
      exact .reports hpc
  · next hpc =>
      cases h
      exact .announces hpc hcur hs
  · next hpc =>
      split at h
      · next hoff =>
          cases h
          exact .notDue hpc hoff
      · simp only [Option.some.injEq, Prod.mk.injEq] at h
        obtain ⟨rfl, rfl⟩ := h
        split
        · next hlt => exact .notYet hpc hcur hs hlt
        · next hge => exact .comesDue hpc hcur hs hge
  · next hpc =>
      split at h
      · next htaken =>
          cases h
          exact .lockTaken hpc hcur hs htaken
      · next hfree =>
          cases h
          exact .locks hpc hcur hs (by simpa using hfree)
  · next hpc =>
      cases h
      exact .resets hpc hcur
  · next pc hpc =>
      split at h
      · cases h
      · next hstep =>
          cases h
          exact .checkpoints hpc hcur hs (checkpointStep_moves hstep)
      · next hstep =>
          cases h
          exact .checkpointed hpc hcur hs (checkpointStep_moves hstep)
  · next result hpc =>
      cases result with
      | ok u =>
          cases h
          exact .releases hpc hcur
      | error err =>
          cases h
          exact .givesUp hpc hcur
  · cases h

/-- **Inversion of a worker step.** -/
theorem step_moves (h : w.step p env io = some (w', e)) : WorkerMove p env w w' e := by
  unfold step at h
  split at h
  · cases h
  · next hpc =>
      split at h
      · rw [Option.map_eq_some_iff] at h
        obtain ⟨w1, hread, heq⟩ := h
        cases heq
        exact readHeader_moves hpc hread
      · cases h
  · split at h
    · cases h
    · next c hcur =>
        split at h
        · cases h
        · next s hs => exact stepChunk_moves hcur hs h

/-- Past the header a worker goes by its chunk and the state of the chunk's file. -/
theorem step_inside (hpc : w.pc ≠ .header) (h : w.step p env io = some (w', e)) :
    ∃ c st, w.current = some c ∧ env.files.lookup c.fileId = some st ∧
      w.stepChunk p env c st w.pc io = some (w', e) := by
  unfold step at h
  split at h
  · cases h
  · next hheader => exact absurd hheader hpc
  · split at h
    · cases h
    · next c hcur =>
        split at h
        · cases h
        · next st hst => exact ⟨c, st, hcur, hst, h⟩

end Worker

end AetherLink
