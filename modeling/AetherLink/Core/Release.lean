import AetherLink.Core.Send
import AetherLink.Lib.Run
import Mathlib.Data.Finset.Max

set_option autoImplicit false

/-! # Releasing read pages behind the sender's workers

With `release_read_pages` set, each file has a `ReadCursor`: a worker registers a chunk under the
queue lock as it pops it, and marks it done once the last frame is written. `finish` then returns the
bytes below the lowest chunk still in flight, when enough of them have accumulated, and the worker
drops their pages with `release_range`.

`Releasing` runs the cursors beside the sender's workers. A returned range stays in the state for
good, so what holds of it holds whenever the worker that got it calls `release_range`. -/

namespace AetherLink

/-! ## Pages -/

/-- `platform::page_size`, of what `sysconf` answers. -/
def pageSize (raw : Int64) : Nat :=
  if 0 < raw.toInt then raw.toInt.toNat else 4096

/-- A mapped source with the page size. A mapping is a slice, and no slice is longer than
    `isize::MAX`. -/
structure MappedFile extends SourceFile where
  raw : Int64
  length_lt : map.length < 2 ^ 63

/-- `SourceFile::release_range`: offset and length of the advised bytes, if any are. The products
    are those of `u64`. -/
def MappedFile.releaseRange (src : MappedFile) (start stop : Nat) : Option (Nat × Nat) :=
  let ps := pageSize src.raw
  let firstWholePage := divCeil start ps * ps % 2 ^ 64
  let lastWholePage := stop / ps * ps % 2 ^ 64
  if lastWholePage ≤ firstWholePage then none
  else some (firstWholePage, lastWholePage - firstWholePage)

/-! ## The hashing pass -/

def RELEASE_BATCH_BYTES : Nat := 32 * 1024 * 1024

/-- Above this size, the hashing pass releases behind itself. -/
def HASH_PASS_RELEASE_THRESHOLD : Nat := 128 * 1024 * 1024

/-- What the pass does to the mapping, each with an offset and a length. -/
inductive PageOp where
  | hash (offset len : Nat)
  | advise (offset len : Nat)
  deriving DecidableEq, Repr

structure HashPass where
  out : List Hash
  releasedTo : Nat
  /-- what has been done to the mapping, first to last -/
  ops : List PageOp

namespace MappedFile

/-- Least number of bytes a release is made for. -/
def batch (src : MappedFile) : Nat :=
  max RELEASE_BATCH_BYTES src.layout.chunkSize

/-- One turn of the loop of `chunk_hashes`. -/
def hashTurn (blake3 : Blake3) (src : MappedFile) (releasePages : Bool) (p : HashPass)
    (index : Nat) : Except Error HashPass :=
  match src.layout.range index with
  | .error e => .error (.wire e)
  | .ok (offset, len) =>
      match src.chunk index with
      | .error e => .error e
      | .ok bytes =>
          let out := p.out ++ [hashChunk blake3 bytes]
          let ops := p.ops ++ [.hash offset len]
          let stop := offset + len
          if releasePages = true ∧ src.batch ≤ stop - p.releasedTo then
            .ok {
              out := out
              releasedTo := stop
              ops := ops ++ (src.releaseRange p.releasedTo stop).toList.map fun x =>
                .advise x.1 x.2 }
          else .ok { p with out := out, ops := ops }

/-- `SourceFile::chunk_hashes`, with what it does to the mapping. -/
def hashPass (blake3 : Blake3) (src : MappedFile) (releasePages : Bool) : Except Error HashPass :=
  (List.range src.layout.count).foldlM
    (src.hashTurn blake3
      (releasePages && decide (HASH_PASS_RELEASE_THRESHOLD < src.layout.fileSize)))
    { out := [], releasedTo := 0, ops := [] }

end MappedFile

/-! ## The cursor of one file -/

/-- `u64::saturating_mul`. -/
def saturatingMul (a b : Nat) : Nat :=
  min (a * b) (2 ^ 64 - 1)

/-- `SourceFile::end_of_chunk`. -/
def SourceFile.endOfChunk (src : SourceFile) (index : Nat) : Nat :=
  min (saturatingMul index src.layout.chunkSize) src.layout.fileSize

/-- Tracks which chunks of one file are still being read. -/
structure ReadCursor where
  inFlight : Finset Nat
  /-- one past the highest index handed out so far -/
  nextDispatch : Nat
  /-- byte offset already released -/
  releasedTo : Nat
  deriving DecidableEq

namespace ReadCursor

/-- `ReadCursor::default`. -/
def default : ReadCursor :=
  { inFlight := ∅, nextDispatch := 0, releasedTo := 0 }

/-- Registers a chunk as being read; `index + 1` is that of `u64`. -/
def begin (self : ReadCursor) (index : Nat) : ReadCursor :=
  { self with
    inFlight := insert index self.inFlight
    nextDispatch := max self.nextDispatch ((index + 1) % 2 ^ 64) }

/-- The lowest chunk in flight, or the dispatch point when there is none. -/
def boundaryChunk (inFlight : Finset Nat) (nextDispatch : Nat) : Nat :=
  inFlight.min.untopD nextDispatch

/-- Marks a chunk done and returns the byte range that has become safe to release, if enough has
    accumulated to be worth a syscall. -/
def finish (self : ReadCursor) (index batch chunkSize fileSize : Nat) :
    ReadCursor × Option (Nat × Nat) :=
  let inFlight := self.inFlight.erase index
  let boundary := min (saturatingMul (boundaryChunk inFlight self.nextDispatch) chunkSize) fileSize
  if boundary - self.releasedTo < batch then ({ self with inFlight := inFlight }, none)
  else ({ self with inFlight := inFlight, releasedTo := boundary },
    some (self.releasedTo, boundary))

end ReadCursor

/-! ## The workers with their cursors -/

/-- A range returned by `finish`. -/
structure Released where
  fileIndex : Nat
  start : Nat
  stop : Nat
  deriving DecidableEq, Repr

structure Releasing where
  sender : Sender
  cursors : List ReadCursor
  /-- what `finish` has returned, first to last -/
  returned : List Released

/-- What a worker's step does to the read cursors. -/
inductive CursorCall where
  | quiet
  | begin (item : WorkItem)
  | finish (item : WorkItem)
  deriving DecidableEq, Repr

/-- The call a worker makes between two places of its loop: `begin` with the pop, `finish` when no
    part of the chunk is left to write. -/
def SendWorkerPc.cursorCall (queue : List WorkItem) : SendWorkerPc → SendWorkerPc → CursorCall
  | .popping, _ =>
      match queue with
      | [] => .quiet
      | item :: _ => .begin item
  | .header item _, .counting _ => .finish item
  | _, _ => .quiet

namespace Releasing

/-- The workers about to start on a queue, any number of them. -/
def start (offered : List (SourceFile × FileEntry)) (queue : List WorkItem) (workers : Nat) :
    Releasing :=
  { sender := { Sender.init with
      offered := offered, queue := queue, workers := List.replicate workers SendWorker.fresh }
    cursors := offered.map fun _ => ReadCursor.default
    returned := [] }

/-- `finish` for a chunk of the source, and the range it returns. -/
def finishItem (r : Releasing) (src : SourceFile) (cursor : ReadCursor) (item : WorkItem) :
    Releasing :=
  let chunkSize := src.layout.chunkSize
  let out := cursor.finish item.chunkIndex (max RELEASE_BATCH_BYTES chunkSize) chunkSize
    src.layout.fileSize
  { r with
    cursors := r.cursors.set item.fileIndex out.1
    returned := r.returned ++ out.2.toList.map fun x => ⟨item.fileIndex, x.1, x.2⟩ }

/-- The cursors after a call. -/
def onCall (r : Releasing) : CursorCall → Releasing
  | .quiet => r
  | .begin item =>
      { r with cursors := r.cursors.modify item.fileIndex (·.begin item.chunkIndex) }
  | .finish item =>
      match r.sender.offered[item.fileIndex]?, r.cursors[item.fileIndex]? with
      | some (src, _), some cursor => r.finishItem src cursor item
      | _, _ => r

/-- The places of worker `i` before and after a step. -/
def places (s s' : Sender) (i : Nat) : Option (SendWorkerPc × SendWorkerPc) :=
  match s.workers[i]?, s'.workers[i]? with
  | some w, some w' => some (w.pc, w'.pc)
  | _, _ => none

/-- One step of worker `i`, with its call. -/
def step (frameSize : UInt32) (r : Releasing) (a : Nat × SendIo) : Option Releasing :=
  match r.sender.workerStep frameSize a.1 a.2 with
  | none => none
  | some sender =>
      match places r.sender sender a.1 with
      | none => none
      | some (pc, pc') => some ({ r with sender := sender }.onCall (pc.cursorCall r.sender.queue pc'))

abbrev runs (frameSize : UInt32) : Releasing → List (Nat × SendIo) → Option Releasing :=
  Run.runs (step frameSize)

/-- The ranges returned for one file, first to last. -/
def returnedFor (r : Releasing) (fileIndex : Nat) : List (Nat × Nat) :=
  (r.returned.filter (·.fileIndex = fileIndex)).map fun x => (x.start, x.stop)

end Releasing

/-- The chunk a worker is between popping and finishing. -/
def SendWorkerPc.reading : SendWorkerPc → Option WorkItem
  | .header item _ => some item
  | .part item _ => some item
  | _ => none

end AetherLink
