import AetherLink.Proofs.Completion
import AetherLink.Spec.Wire

set_option autoImplicit false

/-! # One stream of an honest transfer

The sending worker of a stream and the receiving worker at its other end, while no call fails. What
a stream carries is kept in a `Lane`: the chunks marked in their bitmaps, the chunks taken up after
these, and how much of the first of them is written. The sender has written the frames of the items
and has the rest of one chunk to write (`SendMove`); the receiver has read up to some place in the
frames of the chunks not yet marked (`Worker.Reads`), and what it has not read is in its inbox, in
flight, or still to be written. -/

namespace AetherLink

open Bytes

/-! ## The sending end -/

/-- The worker has found the queue empty. -/
def SendWorkerPc.finishing : SendWorkerPc → Bool
  | .closing => true
  | .draining => true
  | .ended _ => true
  | _ => false

/-- Everything a step of a sending worker whose call succeeds can be. -/
inductive SendMove (frameSize : Nat) (s : Sender) (pc : SendWorkerPc) :
    SendWorkerPc → SendEffect → Prop
  | pops {item : WorkItem} {rest : List WorkItem} (hpc : pc = .popping)
      (hqueue : s.queue = item :: rest) : SendMove frameSize s pc (.header item 0) .pop
  | finds (hpc : pc = .popping) (hqueue : s.queue = []) : SendMove frameSize s pc .closing .quiet
  /-- the next of the bytes it has still to write -/
  | writes {pc' : SendWorkerPc} {bytes : List UInt8}
      (hrest : pc.rest frameSize s.offered = bytes ++ pc'.rest frameSize s.offered)
      (hpc : pc.finishing = false) (hpc' : pc'.finishing = false) :
      SendMove frameSize s pc pc' (.write bytes)
  | tallies {pc' : SendWorkerPc} {e : SendEffect} (hstream : ∀ stream, e.onStream stream = stream)
      (hpop : e ≠ .pop) (hrest : pc.rest frameSize s.offered = pc'.rest frameSize s.offered)
      (hpc : pc.finishing = false) (hpc' : pc'.finishing = false) : SendMove frameSize s pc pc' e
  | shuts (hpc : pc = .closing) : SendMove frameSize s pc .draining .shut
  | ends (hpc : pc = .draining) : SendMove frameSize s pc (.ended (.ok ())) .quiet

/-- **A step of a sending worker whose call succeeds**, while every queued chunk is there. -/
theorem SendWorkerPc.step_next {frameSize : UInt32} {s : Sender} {pc pc' : SendWorkerPc}
    {e : SendEffect} (hpos : 0 < frameSize.toNat)
    (hqueue : ∀ item ∈ s.queue, ∃ x, chunkOf s.offered item = .ok x)
    (h : pc.step frameSize s .next = some (pc', e)) : SendMove frameSize.toNat s pc pc' e := by
  have hne : frameSize ≠ 0 := by
    rintro rfl
    exact absurd hpos (by decide)
  cases pc with
  | popping =>
      simp only [step] at h
      split at h
      · next hq =>
          cases h
          exact .finds rfl hq
      · next item rest hq =>
          obtain ⟨x, hx⟩ := hqueue item (by rw [hq]; exact List.mem_cons_self)
          rw [hx] at h
          simp only [hne, if_false] at h
          cases h
          exact .pops rfl hq
  | header item n =>
      simp only [step] at h
      split at h
      · cases h
      · next offset payload hchunk =>
          by_cases hlt : n * frameSize.toNat < payload.length
          · rw [partOf_of_lt hlt] at h
            cases h
            refine .writes ?_ rfl rfl
            rw [rest, rest, WorkItem.framesFrom_eq hchunk, WorkItem.framesFrom_eq hchunk,
              WorkItem.part_eq hchunk, framesFrom_of_lt item offset hpos hlt, frame,
              List.append_assoc]
          · have hle := Nat.not_lt.1 hlt
            rw [partOf_of_le hle] at h
            cases h
            refine .tallies (fun _ => rfl) (by simp) ?_ rfl rfl
            show item.framesFrom frameSize.toNat s.offered n = []
            rw [WorkItem.framesFrom_eq hchunk, framesFrom_of_le item offset hpos hle]
  | part item n =>
      simp only [step] at h
      split at h
      · cases h
      · next offset payload hchunk =>
          split at h
          · cases h
          · next bytes hpart hio =>
              cases h
              unfold partOf at hpart
              split at hpart
              · cases hpart
                refine .writes ?_ rfl rfl
                rw [rest, rest, WorkItem.part_eq hchunk]
              · cases hpart
          · next hio => cases hio
  | counting item =>
      simp only [step] at h
      split at h
      · cases h
      · cases h
        exact .tallies (fun _ => rfl) (by simp) rfl rfl rfl
  | reporting done =>
      cases h
      exact .tallies (fun _ => rfl) (by simp) rfl rfl rfl
  | closing =>
      cases h
      exact .shuts rfl
  | draining =>
      cases h
      exact .ends rfl
  | ended r => cases h

/-! ## The receiving end -/

/-- The receiver has the file of the item, with the digests of its chunks. -/
structure WorkItem.Expected (blake3 : Blake3) (offered : List (SourceFile × FileEntry))
    (files : Files) (item : WorkItem) (offset : Nat) (payload : List UInt8) (st : FileState) :
    Prop where
  chunk : chunkOf offered item = .ok (offset, payload)
  lookup : files.lookup (UInt64.ofNat item.fileIndex) = some st
  index : item.chunkIndex < st.layout.count
  offset_eq : offset = st.layout.start item.chunkIndex
  length_eq : payload.length = st.layout.len item.chunkIndex
  digest : st.chunkHashes[item.chunkIndex]? = some (hashChunk blake3 payload)

/-- The chunk in progress while the item's frames are read. -/
def WorkItem.current (item : WorkItem) (offset : Nat) (payload : List UInt8) : Current :=
  { fileId := UInt64.ofNat item.fileIndex, chunkIndex := item.chunkIndex, start := offset,
    expectedLen := payload.length }

namespace WorkItem.Expected

variable {blake3 : Blake3} {offered : List (SourceFile × FileEntry)} {files : Files}
  {item : WorkItem} {offset : Nat} {payload : List UInt8} {st : FileState} {frameSize n : Nat}

theorem end_le (h : item.Expected blake3 offered files offset payload st) :
    offset + payload.length ≤ st.layout.fileSize := by
  rw [h.offset_eq, h.length_eq]
  exact st.layout.start_add_len_le h.index

theorem payload_pos (h : item.Expected blake3 offered files offset payload st) :
    0 < payload.length := by
  rw [h.length_eq]
  exact st.layout.len_pos h.index

/-- The frame fits behind the parts before it. -/
theorem admitFrame (h : item.Expected blake3 offered files offset payload st)
    (hmax : frameSize ≤ MAX_FRAME_PAYLOAD) (hlt : n * frameSize < payload.length) :
    AetherLink.admitFrame (item.current offset payload) (payload.take (n * frameSize)).length
      (partHeader frameSize item offset n (slice payload (n * frameSize) frameSize)) = .ok () := by
  have hend := h.end_le
  have hsize := st.layout.fileSize_lt
  have htake : (payload.take (n * frameSize)).length = n * frameSize := by
    rw [List.length_take]
    omega
  have hid : (partHeader frameSize item offset n
      (slice payload (n * frameSize) frameSize)).fileId = (item.current offset payload).fileId := rfl
  have hoffset : (partHeader frameSize item offset n
        (slice payload (n * frameSize) frameSize)).offset.toNat
      = (item.current offset payload).start + (payload.take (n * frameSize)).length := by
    rw [partHeader_offset item offset hlt (by omega), htake]
    rfl
  have hfits : ¬ (item.current offset payload).expectedLen
      < (payload.take (n * frameSize)).length + (partHeader frameSize item offset n
        (slice payload (n * frameSize) frameSize)).length.toNat := by
    rw [partHeader_length item offset hmax, htake, length_slice]
    show ¬ payload.length < _
    omega
  unfold AetherLink.admitFrame
  rw [if_neg (not_not.2 hid), if_neg (not_not.2 hoffset), if_neg hfits]

/-- The first frame begins the chunk. -/
theorem startChunk (h : item.Expected blake3 offered files offset payload st)
    (part : List UInt8) :
    AetherLink.startChunk st (partHeader frameSize item offset 0 part)
      = .ok (item.current offset payload) := by
  have hend := h.end_le
  have hsize := st.layout.fileSize_lt
  have hoffset : (partHeader frameSize item offset 0 part).offset.toNat = offset := by
    simp only [partHeader, FrameHeader.new, UInt64.toNat_ofNat']
    rw [Nat.mod_eq_of_lt (by omega), Nat.zero_mul, Nat.add_zero]
  unfold AetherLink.startChunk
  rw [hoffset, h.offset_eq, st.layout.indexOf_start h.index]
  simp only [st.layout.range_eq h.index]
  rw [if_neg (not_not.2 rfl), ← h.offset_eq, ← h.length_eq]
  rfl

/-- **The header of each frame is accepted**, the first to begin the chunk and the others for the
    chunk in progress. -/
theorem acceptFrame (h : item.Expected blake3 offered files offset payload st)
    (hmax : frameSize ≤ MAX_FRAME_PAYLOAD) (hlt : n * frameSize < payload.length)
    {current : Option Current} {buf : List UInt8}
    (hcur : (current = none ∧ n = 0) ∨
      (current = some (item.current offset payload) ∧ buf = payload.take (n * frameSize))) :
    AetherLink.acceptFrame files current buf
        (partHeader frameSize item offset n (slice payload (n * frameSize) frameSize))
      = .ok (item.current offset payload, payload.take (n * frameSize)) := by
  have hlookup : files.lookup (partHeader frameSize item offset n
      (slice payload (n * frameSize) frameSize)).fileId = some st := h.lookup
  have hallowed := h.admitFrame hmax hlt
  unfold AetherLink.acceptFrame
  rw [hlookup]
  rcases hcur with ⟨rfl, rfl⟩ | ⟨rfl, rfl⟩
  · rw [Nat.zero_mul, List.take_zero] at hallowed ⊢
    simp only [h.startChunk, Except.map, hallowed]
  · simp only [hallowed]

end WorkItem.Expected

/-- The places between the setting of the bit and the next header. -/
def WorkerPc.Settling : WorkerPc → Prop
  | .count _ => True
  | .report _ _ => True
  | .announce => True
  | .due => True
  | .tryLock => True
  | .reset => True
  | .checkpoint _ => True
  | .release (.ok ()) => True
  | _ => False

section Steps

variable {p : Params} {env : Env} {w w' : Worker} {io : IoAct} {e : Effect}

/-- **From the bit to the next header**: no call fails, so the worker gets there. -/
theorem Worker.step_settling (hpc : w.pc.Settling) (hio : io ≠ .fail)
    (h : w.step p env io = some (w', e)) :
    w'.inbox = w.inbox ∧ w'.closed = w.closed ∧ (∀ id i, e ≠ .setBit id i) ∧
      (w'.pc.Settling ∨ (w'.pc = .header ∧ w'.current = none)) := by
  obtain ⟨c, st, hcur, hst, hchunk⟩ := Worker.step_inside (by
    intro hheader
    rw [hheader] at hpc
    exact hpc) h
  generalize w.pc = pc at hpc hchunk
  cases pc with
  | count complete =>
      cases io with
      | next =>
          cases hchunk
          exact ⟨rfl, rfl, by simp, Or.inl trivial⟩
      | _ => cases hchunk
  | report complete done =>
      cases io with
      | next =>
          cases hchunk
          refine ⟨rfl, rfl, by simp, Or.inl ?_⟩
          cases complete <;> trivial
      | _ => cases hchunk
  | announce =>
      cases io with
      | next =>
          cases hchunk
          exact ⟨rfl, rfl, by simp, Or.inl trivial⟩
      | _ => cases hchunk
  | due =>
      cases io with
      | next =>
          simp only [stepChunk] at hchunk
          split at hchunk
          · cases hchunk
            exact ⟨rfl, rfl, by simp, Or.inr ⟨rfl, rfl⟩⟩
          · cases hchunk
            refine ⟨?_, ?_, by simp, ?_⟩
            · split <;> rfl
            · split <;> rfl
            · split
              · exact Or.inr ⟨rfl, rfl⟩
              · exact Or.inl trivial
      | _ => cases hchunk
  | tryLock =>
      cases io with
      | next =>
          simp only [stepChunk] at hchunk
          split at hchunk
          · cases hchunk
            exact ⟨rfl, rfl, by simp, Or.inr ⟨rfl, rfl⟩⟩
          · cases hchunk
            exact ⟨rfl, rfl, by simp, Or.inl trivial⟩
      | _ => cases hchunk
  | reset =>
      cases io with
      | next =>
          cases hchunk
          exact ⟨rfl, rfl, by simp, Or.inl trivial⟩
      | _ => cases hchunk
  | checkpoint cp =>
      simp only [stepChunk] at hchunk
      split at hchunk
      · cases hchunk
      · next hstep =>
          cases hchunk
          exact ⟨rfl, rfl, (checkpointStep_moves hstep).not_setBit, Or.inl trivial⟩
      · next hstep =>
          cases hchunk
          refine ⟨rfl, rfl, (checkpointStep_moves hstep).not_setBit, Or.inl ?_⟩
          rw [checkpointStep_result hstep hio]
          trivial
  | release r =>
      cases r with
      | error err => exact hpc.elim
      | ok u =>
          cases io with
          | next =>
              cases hchunk
              exact ⟨rfl, rfl, by simp, Or.inr ⟨rfl, rfl⟩⟩
          | _ => cases hchunk
  | _ => exact hpc.elim

/-- **Reading a frame's header.** The worker goes on to the frame's payload, which is what follows. -/
theorem Worker.readHeader_frame {blake3 : Blake3} {offered : List (SourceFile × FileEntry)}
    {files : Files} {item : WorkItem} {offset : Nat} {payload : List UInt8} {st : FileState}
    {frameSize n : Nat} {more tail : List UInt8}
    (hexp : item.Expected blake3 offered files offset payload st)
    (hmax : frameSize ≤ MAX_FRAME_PAYLOAD) (hlt : n * frameSize < payload.length)
    (hcur : (w.current = none ∧ n = 0) ∨
      (w.current = some (item.current offset payload) ∧ w.buf = payload.take (n * frameSize)))
    (hpipe : w.inbox ++ more = frame frameSize item offset payload n ++ tail)
    (hopen : w.closed = none ∨ (w.closed = some .eof ∧ more = []))
    (h : w.readHeader files = some w') :
    w' = { w with
        inbox := w.inbox.drop HEADER_LEN
        current := some (item.current offset payload)
        buf := payload.take (n * frameSize)
        pc := .payload (slice payload (n * frameSize) frameSize).length } ∧
      w.inbox.drop HEADER_LEN ++ more = slice payload (n * frameSize) frameSize ++ tail := by
  have hhead := FrameHeader.length_encode
    (partHeader frameSize item offset n (slice payload (n * frameSize) frameSize))
  by_cases hlen : HEADER_LEN ≤ w.inbox.length
  · have hprefix : frame frameSize item offset payload n <+: w.inbox ++ more := ⟨tail, hpipe.symm⟩
    have hdecode := decode_frame item offset hmax hprefix
    rw [List.take_append_of_le_length hlen] at hdecode
    have hdrop : w.inbox.drop HEADER_LEN ++ more
        = slice payload (n * frameSize) frameSize ++ tail := by
      rw [← List.drop_append_of_le_length hlen, hpipe, frame, List.append_assoc,
        List.drop_left' hhead]
    unfold readHeader at h
    rw [if_pos hlen] at h
    simp only [hdecode] at h
    have htype : (partHeader frameSize item offset n
        (slice payload (n * frameSize) frameSize)).msgType = .fileData := rfl
    simp only [htype, hexp.acceptFrame hmax hlt hcur, partHeader_length item offset hmax] at h
    exact ⟨(Option.some.inj h).symm, hdrop⟩
  · unfold readHeader at h
    rw [if_neg hlen] at h
    rcases hopen with hnone | ⟨-, rfl⟩
    · rw [hnone] at h
      cases h
    · -- at the end of the stream the whole frame has arrived
      have := congrArg List.length hpipe
      rw [List.length_append, List.length_append, frame, List.length_append, hhead,
        List.length_nil] at this
      omega

end Steps

/-! ## The chunks of a stream -/

/-- What a stream carries: the chunks marked in their bitmaps, the chunks taken up after these, and
    how many bytes of the first of these are written to its file. -/
structure Lane where
  marked : List WorkItem
  todo : List WorkItem
  wrote : Nat

namespace Lane

def empty : Lane :=
  { marked := [], todo := [], wrote := 0 }

/-- The chunks the sending worker has taken up. -/
def items (l : Lane) : List WorkItem :=
  l.marked ++ l.todo

/-- One more chunk is taken up. -/
def push (l : Lane) (item : WorkItem) : Lane :=
  { l with todo := l.todo ++ [item] }

theorem items_push (l : Lane) (item : WorkItem) : (l.push item).items = l.items ++ [item] :=
  (List.append_assoc _ _ _).symm

end Lane

/-- Where a receiving worker is in the chunks of its stream, and the bytes it has still to read of
    them. -/
inductive Worker.Reads (frameSize : Nat) (offered : List (SourceFile × FileEntry)) (w : Worker) :
    Lane → List UInt8 → Prop
  | idle {marked todo : List WorkItem} (hpc : w.pc = .header) (hcur : w.current = none) :
      Reads frameSize offered w ⟨marked, todo, 0⟩ (todo.flatMap (WorkItem.wire frameSize offered))
  /-- before the `n`-th frame of a chunk in progress -/
  | between {marked todo : List WorkItem} {item : WorkItem} {offset n : Nat} {payload : List UInt8}
      (hchunk : chunkOf offered item = .ok (offset, payload)) (hpc : w.pc = .header)
      (hcur : w.current = some (item.current offset payload))
      (hbuf : w.buf = payload.take (n * frameSize)) (hlt : n * frameSize < payload.length) :
      Reads frameSize offered w ⟨marked, item :: todo, 0⟩
        (framesFrom frameSize item offset payload n ++
          todo.flatMap (WorkItem.wire frameSize offered))
  /-- before the payload of the `n`-th frame -/
  | inside {marked todo : List WorkItem} {item : WorkItem} {offset n : Nat} {payload : List UInt8}
      (hchunk : chunkOf offered item = .ok (offset, payload))
      (hpc : w.pc = .payload (slice payload (n * frameSize) frameSize).length)
      (hcur : w.current = some (item.current offset payload))
      (hbuf : w.buf = payload.take (n * frameSize)) (hlt : n * frameSize < payload.length) :
      Reads frameSize offered w ⟨marked, item :: todo, 0⟩
        (slice payload (n * frameSize) frameSize ++
          (framesFrom frameSize item offset payload (n + 1) ++
            todo.flatMap (WorkItem.wire frameSize offered)))
  /-- with a whole chunk that is not yet marked -/
  | holding {marked todo : List WorkItem} {item : WorkItem} {offset wrote : Nat}
      {payload : List UInt8} (hchunk : chunkOf offered item = .ok (offset, payload))
      (hpc : (w.pc = .verify ∧ wrote = 0) ∨ w.pc = .write wrote ∨
        (w.pc = .mark ∧ wrote = payload.length))
      (hcur : w.current = some (item.current offset payload)) (hbuf : w.buf = payload) :
      Reads frameSize offered w ⟨marked, item :: todo, wrote⟩
        (todo.flatMap (WorkItem.wire frameSize offered))
  | settling {marked todo : List WorkItem} (hpc : w.pc.Settling) :
      Reads frameSize offered w ⟨marked, todo, 0⟩ (todo.flatMap (WorkItem.wire frameSize offered))
  | ended {marked : List WorkItem} (hpc : w.pc = .ended (.ok ())) :
      Reads frameSize offered w ⟨marked, [], 0⟩ []

/-- What a step of the receiving worker does to the chunks of its stream. -/
inductive Lane.Move (offered : List (SourceFile × FileEntry)) (files : Files) (w : Worker)
    (io : IoAct) : Lane → Effect → Lane → Prop
  | stays {l : Lane} {e : Effect} (hset : ∀ id i, e ≠ .setBit id i)
      (hwrite : ∀ done, w.pc = .write done → io = .next) : Move offered files w io l e l
  /-- a piece of the chunk in hand is written -/
  | writes {marked todo : List WorkItem} {item : WorkItem} {offset done n : Nat}
      {payload : List UInt8} {st : FileState}
      (hchunk : chunkOf offered item = .ok (offset, payload))
      (hst : files.lookup (UInt64.ofNat item.fileIndex) = some st)
      (hfits : done + n ≤ payload.length) :
      Move offered files w io ⟨marked, item :: todo, done⟩
        (.pwrite st.sink.ino (offset + done) (slice payload done n))
        ⟨marked, item :: todo, done + n⟩
  /-- its bit is set -/
  | marks {marked todo : List WorkItem} {item : WorkItem} {offset : Nat} {payload : List UInt8}
      (hchunk : chunkOf offered item = .ok (offset, payload)) :
      Move offered files w io ⟨marked, item :: todo, payload.length⟩
        (.setBit (UInt64.ofNat item.fileIndex) item.chunkIndex) ⟨marked ++ [item], todo, 0⟩

namespace Worker.Reads

variable {frameSize : Nat} {offered : List (SourceFile × FileEntry)} {w w' : Worker} {l : Lane}
  {bytes more : List UInt8} {p : Params} {env : Env} {io : IoAct} {e : Effect}

/-- Arrivals do not move the worker. -/
theorem of_arrives (h : w.Reads frameSize offered l bytes) (inbox : List UInt8)
    (closed : Option Closing) :
    ({ w with inbox := inbox, closed := closed } : Worker).Reads frameSize offered l bytes := by
  cases h with
  | idle hpc hcur => exact .idle hpc hcur
  | between hchunk hpc hcur hbuf hlt => exact .between hchunk hpc hcur hbuf hlt
  | inside hchunk hpc hcur hbuf hlt => exact .inside hchunk hpc hcur hbuf hlt
  | holding hchunk hpc hcur hbuf => exact .holding hchunk hpc hcur hbuf
  | settling hpc => exact .settling hpc
  | ended hpc => exact .ended hpc

/-- The sending worker takes up one more chunk. -/
theorem append (h : w.Reads frameSize offered l bytes) (hrun : ∀ r, w.pc ≠ .ended r)
    (item : WorkItem) :
    w.Reads frameSize offered (l.push item)
      (bytes ++ item.wire frameSize offered) := by
  have hmore : ∀ todo : List WorkItem, todo.flatMap (WorkItem.wire frameSize offered) ++
      item.wire frameSize offered = (todo ++ [item]).flatMap (WorkItem.wire frameSize offered) := by
    intro todo
    rw [List.flatMap_append, List.flatMap_singleton]
  cases h with
  | idle hpc hcur =>
      rw [hmore]
      exact .idle hpc hcur
  | between hchunk hpc hcur hbuf hlt =>
      rw [List.append_assoc, hmore]
      exact .between hchunk hpc hcur hbuf hlt
  | inside hchunk hpc hcur hbuf hlt =>
      rw [List.append_assoc, List.append_assoc, hmore]
      exact .inside hchunk hpc hcur hbuf hlt
  | holding hchunk hpc hcur hbuf =>
      rw [hmore]
      exact .holding hchunk hpc hcur hbuf
  | settling hpc =>
      rw [hmore]
      exact .settling hpc
  | ended hpc => exact absurd hpc (hrun _)

/-- After a step the worker is in the chunks of its stream again, with `more` still to come, and if it
    has ended it has seen the end of the stream. -/
def ReadsOn (frameSize : Nat) (offered : List (SourceFile × FileEntry)) (files : Files)
    (w : Worker) (io : IoAct) (l : Lane) (more : List UInt8) (w' : Worker) (e : Effect) : Prop :=
  ∃ l', Lane.Move offered files w io l e l' ∧ w'.Reads frameSize offered l' (w'.inbox ++ more) ∧
    w'.closed = w.closed ∧ ∀ r, w'.pc = .ended r → w.closed = some .eof

/-- A step at the header that takes in a frame. -/
theorem readsOn_frame {item : WorkItem} {offset n : Nat} {payload : List UInt8} {st : FileState}
    {marked todo : List WorkItem}
    (hexp : item.Expected p.blake3 offered env.files offset payload st)
    (hmax : frameSize ≤ MAX_FRAME_PAYLOAD) (hpos : 0 < frameSize)
    (hlt : n * frameSize < payload.length)
    (hpc : w.pc = .header)
    (hcur : (w.current = none ∧ n = 0) ∨
      (w.current = some (item.current offset payload) ∧ w.buf = payload.take (n * frameSize)))
    (hpipe : w.inbox ++ more = framesFrom frameSize item offset payload n ++
      todo.flatMap (WorkItem.wire frameSize offered))
    (hopen : w.closed = none ∨ (w.closed = some .eof ∧ more = []))
    (h : w.readHeader env.files = some w') :
    ReadsOn frameSize offered env.files w io ⟨marked, item :: todo, 0⟩ more w' .quiet := by
  rw [framesFrom_of_lt item offset hpos hlt, List.append_assoc] at hpipe
  obtain ⟨rfl, hrest⟩ := Worker.readHeader_frame hexp hmax hlt hcur hpipe hopen h
  refine ⟨_, .stays (by simp) (by simp [hpc]), ?_, rfl, by simp⟩
  simp only [hrest]
  exact .inside hexp.chunk rfl rfl rfl hlt

/-- A step at the header after the last chunk there is. -/
theorem readsOn_end {marked : List WorkItem} (hpc : w.pc = .header) (hcur : w.current = none)
    (hpipe : w.inbox ++ more = []) (hopen : w.closed = none ∨ (w.closed = some .eof ∧ more = []))
    (h : w.readHeader env.files = some w') :
    ReadsOn frameSize offered env.files w io ⟨marked, [], 0⟩ more w' .quiet := by
  obtain ⟨hinbox, rfl⟩ := List.append_eq_nil_iff.1 hpipe
  unfold Worker.readHeader at h
  rw [if_neg (by rw [hinbox]; decide)] at h
  rcases hopen with hnone | ⟨heof, -⟩
  · rw [hnone] at h
    cases h
  · simp only [heof, hcur, Option.isSome_none, Bool.false_eq_true, if_false,
      Option.some.injEq] at h
    subst h
    refine ⟨_, .stays (by simp) (by simp [hpc]), ?_, rfl, fun _ _ => heof⟩
    simp only [Worker.stop, hinbox, List.append_nil]
    exact .ended rfl

/-- A step that takes in a frame's payload. -/
theorem readsOn_payload {item : WorkItem} {offset n : Nat} {payload : List UInt8}
    {marked todo : List WorkItem} (hchunk : chunkOf offered item = .ok (offset, payload))
    (hpos : 0 < frameSize)
    (hpc : w.pc = .payload (slice payload (n * frameSize) frameSize).length)
    (hcur : w.current = some (item.current offset payload))
    (hbuf : w.buf = payload.take (n * frameSize))
    (hpipe : w.inbox ++ more = slice payload (n * frameSize) frameSize ++
      (framesFrom frameSize item offset payload (n + 1) ++
        todo.flatMap (WorkItem.wire frameSize offered)))
    (hopen : w.closed = none ∨ (w.closed = some .eof ∧ more = []))
    (h : w.readPayload (item.current offset payload)
      (slice payload (n * frameSize) frameSize).length = some w') :
    ReadsOn frameSize offered env.files w io ⟨marked, item :: todo, 0⟩ more w' .quiet := by
  by_cases hlen : (slice payload (n * frameSize) frameSize).length ≤ w.inbox.length
  · have hpart : w.inbox.take (slice payload (n * frameSize) frameSize).length
        = slice payload (n * frameSize) frameSize := by
      have htake := congrArg (List.take (slice payload (n * frameSize) frameSize).length) hpipe
      rwa [List.take_append_of_le_length hlen, List.take_left] at htake
    have hrest : w.inbox.drop (slice payload (n * frameSize) frameSize).length ++ more
        = framesFrom frameSize item offset payload (n + 1) ++
          todo.flatMap (WorkItem.wire frameSize offered) := by
      rw [← List.drop_append_of_le_length hlen, hpipe, List.drop_left]
    have hlengths : (payload.take ((n + 1) * frameSize)).length = payload.length ↔
        payload.length ≤ (n + 1) * frameSize := by
      rw [List.length_take]
      omega
    unfold Worker.readPayload at h
    simp only [if_pos hlen, hpart, hbuf, take_append_part, Option.some.injEq] at h
    subst h
    by_cases hfull : payload.length ≤ (n + 1) * frameSize
    · refine ⟨_, .stays (by simp) (by simp [hpc]), ?_, rfl, fun r hr => ?_⟩
      · simp only [hrest, framesFrom_of_le item offset hpos hfull, List.nil_append]
        refine .holding hchunk (Or.inl ⟨if_pos (hlengths.2 hfull), rfl⟩) hcur ?_
        exact List.take_of_length_le hfull
      · simp only at hr
        split at hr <;> cases hr
    · refine ⟨_, .stays (by simp) (by simp [hpc]), ?_, rfl, fun r hr => ?_⟩
      · simp only [hrest]
        exact .between hchunk (if_neg fun heq => hfull (hlengths.1 heq)) hcur rfl (Nat.not_le.1 hfull)
      · simp only at hr
        split at hr <;> cases hr
  · unfold Worker.readPayload at h
    rw [if_neg hlen] at h
    rcases hopen with hnone | ⟨-, rfl⟩
    · rw [hnone] at h
      cases h
    · have := congrArg List.length hpipe
      rw [List.length_append, List.length_append, List.length_nil] at this
      omega

/-- A step with a whole chunk that is not yet marked. -/
theorem readsOn_holding {item : WorkItem} {offset wrote : Nat} {payload : List UInt8}
    {st : FileState} {marked todo : List WorkItem}
    (hexp : item.Expected p.blake3 offered env.files offset payload st)
    (hcount : st.bitmap.count = st.layout.count)
    (hpc : (w.pc = .verify ∧ wrote = 0) ∨ w.pc = .write wrote ∨
      (w.pc = .mark ∧ wrote = payload.length))
    (hcur : w.current = some (item.current offset payload)) (hbuf : w.buf = payload)
    (hpipe : w.inbox ++ more = todo.flatMap (WorkItem.wire frameSize offered)) (hio : io ≠ .fail)
    (h : w.stepChunk p env (item.current offset payload) st w.pc io = some (w', e)) :
    ReadsOn frameSize offered env.files w io ⟨marked, item :: todo, wrote⟩ more w' e := by
  rcases hpc with ⟨hpc, rfl⟩ | hpc | ⟨hpc, rfl⟩
  · -- the chunk's digest is the committed one
    cases io with
    | next =>
        rw [hpc] at h
        simp only [Worker.stepChunk, WorkItem.current, hexp.digest, hbuf, ne_eq, not_true,
          if_false] at h
        cases h
        refine ⟨_, .stays (by simp) (by simp [hpc]), ?_, rfl, by simp⟩
        simp only [hpipe]
        exact .holding hexp.chunk (Or.inr (Or.inl rfl)) hcur rfl
    | write n =>
        rw [hpc] at h
        cases h
    | fail => exact absurd rfl hio
  · cases io with
    | next =>
        rw [hpc] at h
        simp only [Worker.stepChunk, hbuf] at h
        split at h
        · next hdone =>
            cases h
            refine ⟨_, .stays (by simp) (by simp), ?_, rfl, by simp⟩
            simp only [hpipe]
            exact .holding hexp.chunk (Or.inr (Or.inr ⟨rfl, hdone⟩)) hcur rfl
        · cases h
    | write n =>
        rw [hpc] at h
        simp only [Worker.stepChunk] at h
        split at h
        · next hfits =>
            cases h
            refine ⟨⟨marked, item :: todo, wrote + n⟩, ?_, ?_, rfl, by simp⟩
            · rw [hbuf] at hfits ⊢
              exact .writes hexp.chunk hexp.lookup hfits.2
            · simp only [hpipe]
              exact .holding hexp.chunk (Or.inr (Or.inl rfl)) hcur hbuf
        · cases h
    | fail => exact absurd rfl hio
  · cases io with
    | next =>
        obtain ⟨b, hset⟩ := ChunkBitmap.set_ok (hcount ▸ hexp.index)
        rw [hpc] at h
        simp only [Worker.stepChunk, WorkItem.current, hset] at h
        cases h
        refine ⟨_, .marks hexp.chunk, ?_, rfl, by simp⟩
        simp only [hpipe]
        exact .settling trivial
    | write n =>
        rw [hpc] at h
        cases h
    | fail => exact absurd rfl hio

/-- A step at the header. -/
theorem step_header (hpc : w.pc = .header) (h : w.step p env io = some (w', e)) :
    w.readHeader env.files = some w' ∧ e = .quiet := by
  simp only [Worker.step, hpc] at h
  split at h
  · rw [Option.map_eq_some_iff] at h
    obtain ⟨w1, hread, heq⟩ := h
    cases heq
    exact ⟨hread, rfl⟩
  · cases h

/-- **A receiving worker reads on.** While no call fails and what has arrived and is still to come
    are the frames of its chunks, a step of the worker does not fail. -/
theorem step (hpos : 0 < frameSize) (hmax : frameSize ≤ MAX_FRAME_PAYLOAD)
    (hexp : ∀ item ∈ l.todo, ∃ offset payload st,
      item.Expected p.blake3 offered env.files offset payload st)
    (hcount : ∀ id st, env.files.lookup id = some st → st.bitmap.count = st.layout.count)
    (hreads : w.Reads frameSize offered l bytes) (hpipe : w.inbox ++ more = bytes)
    (hopen : w.closed = none ∨ (w.closed = some .eof ∧ more = [])) (hio : io ≠ .fail)
    (h : w.step p env io = some (w', e)) :
    ReadsOn frameSize offered env.files w io l more w' e := by
  have hitem : ∀ {item : WorkItem} {offset : Nat} {payload : List UInt8},
      chunkOf offered item = .ok (offset, payload) → item ∈ l.todo →
      ∃ st, item.Expected p.blake3 offered env.files offset payload st := by
    intro item offset payload hchunk hmem
    obtain ⟨offset', payload', st, hst⟩ := hexp item hmem
    cases hchunk.symm.trans hst.chunk
    exact ⟨st, hst⟩
  cases hreads with
  | @idle marked todo hpc hcur =>
      obtain ⟨hread, rfl⟩ := step_header hpc h
      cases todo with
      | nil => exact readsOn_end hpc hcur hpipe hopen hread
      | cons item todo =>
          obtain ⟨offset, payload, st, hst⟩ := hexp item List.mem_cons_self
          have hzero : 0 * frameSize < payload.length := by
            rw [Nat.zero_mul]
            exact hst.payload_pos
          rw [List.flatMap_cons, WorkItem.wire, WorkItem.framesFrom_eq hst.chunk] at hpipe
          exact readsOn_frame hst hmax hpos hzero hpc (Or.inl ⟨hcur, rfl⟩) hpipe hopen hread
  | between hchunk hpc hcur hbuf hlt =>
      obtain ⟨hread, rfl⟩ := step_header hpc h
      obtain ⟨st, hst⟩ := hitem hchunk List.mem_cons_self
      exact readsOn_frame hst hmax hpos hlt hpc (Or.inr ⟨hcur, hbuf⟩) hpipe hopen hread
  | inside hchunk hpc hcur hbuf hlt =>
      obtain ⟨c, st, hcur', hst, hstep⟩ := Worker.step_inside (by simp [hpc]) h
      obtain rfl := Option.some.inj (hcur.symm.trans hcur')
      rw [hpc] at hstep
      cases io with
      | next =>
          simp only [Worker.stepChunk, Option.map_eq_some_iff] at hstep
          obtain ⟨w1, hread, heq⟩ := hstep
          cases heq
          exact readsOn_payload hchunk hpos hpc hcur hbuf hpipe hopen hread
      | _ => cases hstep
  | holding hchunk hpc hcur hbuf =>
      obtain ⟨st, hst⟩ := hitem hchunk List.mem_cons_self
      obtain ⟨c, st', hcur', hst', hstep⟩ := Worker.step_inside (by
        rcases hpc with ⟨hpc, -⟩ | hpc | ⟨hpc, -⟩ <;> simp [hpc]) h
      obtain rfl := Option.some.inj (hcur.symm.trans hcur')
      obtain rfl := Option.some.inj (hst.lookup.symm.trans hst')
      exact readsOn_holding hst (hcount _ st hst') hpc hcur hbuf hpipe hio hstep
  | settling hpc =>
      obtain ⟨hinbox, hclosed, hset, hnext⟩ := Worker.step_settling hpc hio h
      refine ⟨_, .stays hset fun done hdone => ?_, ?_, hclosed, fun r hr => ?_⟩
      · rw [hdone] at hpc
        exact hpc.elim
      · rw [hinbox, hpipe]
        rcases hnext with hnext | ⟨hheader, hnone⟩
        · exact .settling hnext
        · exact .idle hheader hnone
      · rcases hnext with hnext | ⟨hheader, -⟩
        · rw [hr] at hnext
          exact hnext.elim
        · rw [hheader] at hr
          cases hr
  | ended hpc =>
      simp only [Worker.step, hpc] at h
      cases h

end Worker.Reads

/-! ## Both ends -/

/-- A step of the receiving worker takes up no chunk. -/
theorem Lane.Move.items_eq {offered : List (SourceFile × FileEntry)} {files : Files} {w : Worker}
    {io : IoAct} {l l' : Lane} {e : Effect} (h : Lane.Move offered files w io l e l') :
    l'.items = l.items := by
  cases h with
  | stays hset hwrite => rfl
  | writes hchunk hst hfits => rfl
  | marks hchunk => simp [Lane.items]

/-- What the receiving end has not got yet: in flight, or still to be written. -/
def SendWorker.unread (frameSize : Nat) (offered : List (SourceFile × FileEntry))
    (sw : SendWorker) : List UInt8 :=
  sw.stream.written.drop sw.stream.delivered ++ sw.pc.rest frameSize offered

/-- **The two ends of a stream agree on what it carries.** -/
structure Lane.Linked (frameSize : Nat) (offered : List (SourceFile × FileEntry)) (l : Lane)
    (sw : SendWorker) (w : Worker) : Prop where
  sent : sw.stream.written ++ sw.pc.rest frameSize offered
    = l.items.flatMap (WorkItem.wire frameSize offered)
  delivered_le : sw.stream.delivered ≤ sw.stream.written.length
  reads : w.Reads frameSize offered l (w.inbox ++ sw.unread frameSize offered)
  shut : sw.stream.shut = true → sw.pc = .draining ∨ sw.pc = .ended (.ok ())
  sent_ok : ∀ e, sw.pc ≠ .ended (.error e)
  closed : w.closed = none ∨ (w.closed = some .eof ∧ sw.stream.shut = true ∧
    sw.stream.delivered = sw.stream.written.length)
  ended : ∀ r, w.pc = .ended r → sw.stream.shut = true

theorem Lane.linked_fresh (frameSize : Nat) (offered : List (SourceFile × FileEntry)) :
    Lane.empty.Linked frameSize offered SendWorker.fresh Worker.fresh where
  sent := rfl
  delivered_le := Nat.le_refl _
  reads := .idle rfl rfl
  shut := nofun
  sent_ok := nofun
  closed := Or.inl rfl
  ended := nofun

namespace Lane.Linked

variable {frameSize : Nat} {offered : List (SourceFile × FileEntry)} {l : Lane} {sw : SendWorker}
  {w : Worker}

/-- A receiving worker that has ended has done all its chunks, without an error. -/
theorem of_ended (h : l.Linked frameSize offered sw w) {r : Except Error Unit}
    (hr : w.pc = .ended r) : r = .ok () ∧ l.todo = [] := by
  have hreads := h.reads
  generalize w.inbox ++ sw.unread frameSize offered = bytes at hreads
  cases hreads with
  | ended hpc => exact ⟨WorkerPc.ended.inj (hr.symm.trans hpc), rfl⟩
  | holding hchunk hpc hcur hbuf => rcases hpc with ⟨hpc, -⟩ | hpc | ⟨hpc, -⟩ <;> simp [hpc] at hr
  | settling hpc =>
      rw [hr] at hpc
      exact hpc.elim
  | _ => simp [*] at hr

/-- The sending worker writes on, or goes on without writing. -/
theorem send {s : Sender} (h : l.Linked frameSize s.offered sw w) {pc : SendWorkerPc}
    {e : SendEffect} (hmove : SendMove frameSize s sw.pc pc e) (hpop : e ≠ .pop) :
    l.Linked frameSize s.offered { stream := e.onStream sw.stream, pc := pc } w := by
  have hrunning : sw.pc.finishing = false → sw.stream.shut = false := by
    intro hbusy
    cases hshut : sw.stream.shut with
    | false => rfl
    | true => rcases h.shut hshut with hpc | hpc <;> rw [hpc] at hbusy <;> cases hbusy
  have hok : ∀ err, pc = .ended (.error err) → pc.finishing = false → False := by
    rintro err rfl hbusy
    cases hbusy
  cases hmove with
  | pops hpc hqueue => exact absurd rfl hpop
  | finds hpc hqueue =>
      have hopen := hrunning (by rw [hpc]; rfl)
      obtain ⟨hsent, hle, hreads, -, -, hclosed, hended⟩ := h
      rw [hpc] at hsent
      rw [SendWorker.unread, hpc] at hreads
      exact ⟨hsent, hle, hreads, fun hshut => absurd (hopen.symm.trans hshut) (by simp), by simp,
        hclosed, hended⟩
  | @writes pc bytes hrest hpc hpc' =>
      have hopen := hrunning hpc
      obtain ⟨hsent, hle, hreads, -, -, hclosed, hended⟩ := h
      refine ⟨?_, ?_, ?_, fun hshut => absurd (hopen.symm.trans hshut) (by simp),
        fun err herr => hok err herr hpc', ?_, hended⟩
      · show sw.stream.written ++ bytes ++ pc.rest frameSize s.offered = _
        rw [List.append_assoc, ← hrest]
        exact hsent
      · show sw.stream.delivered ≤ (sw.stream.written ++ bytes).length
        rw [List.length_append]
        omega
      · have hunread : SendWorker.unread frameSize s.offered
              { stream := SendEffect.onStream sw.stream (.write bytes), pc := pc }
            = sw.unread frameSize s.offered := by
          show (sw.stream.written ++ bytes).drop sw.stream.delivered ++ _ = _
          rw [SendWorker.unread, List.drop_append_of_le_length hle, hrest, List.append_assoc]
        rw [hunread]
        exact hreads
      · rcases hclosed with hnone | ⟨-, hshut, -⟩
        · exact Or.inl hnone
        · rw [hopen] at hshut
          cases hshut
  | tallies hstream hpop hrest hpc hpc' =>
      have hopen := hrunning hpc
      obtain ⟨hsent, hle, hreads, -, -, hclosed, hended⟩ := h
      rw [hrest] at hsent
      rw [SendWorker.unread, hrest] at hreads
      rw [hstream]
      exact ⟨hsent, hle, hreads, fun hshut => absurd (hopen.symm.trans hshut) (by simp),
        fun err herr => hok err herr hpc', hclosed, hended⟩
  | shuts hpc =>
      obtain ⟨hsent, hle, hreads, -, -, hclosed, hended⟩ := h
      rw [hpc] at hsent
      rw [SendWorker.unread, hpc] at hreads
      refine ⟨hsent, hle, hreads, fun _ => Or.inl rfl, by simp, ?_, fun _ _ => rfl⟩
      rcases hclosed with hnone | ⟨heof, -, hall⟩
      · exact Or.inl hnone
      · exact Or.inr ⟨heof, rfl, hall⟩
  | ends hpc =>
      obtain ⟨hsent, hle, hreads, -, -, hclosed, hended⟩ := h
      rw [hpc] at hsent
      rw [SendWorker.unread, hpc] at hreads
      exact ⟨hsent, hle, hreads, fun _ => Or.inr rfl, by simp, hclosed, hended⟩

/-- The sending worker takes up the next chunk. -/
theorem pop (h : l.Linked frameSize offered sw w) (hpc : sw.pc = .popping) (item : WorkItem) :
    (l.push item).Linked frameSize offered
      { stream := sw.stream, pc := .header item 0 } w := by
  have hopen : sw.stream.shut = false := by
    cases hshut : sw.stream.shut with
    | false => rfl
    | true => rcases h.shut hshut with hpc' | hpc' <;> rw [hpc] at hpc' <;> cases hpc'
  obtain ⟨hsent, hle, hreads, -, -, hclosed, hended⟩ := h
  have hrun : ∀ r, w.pc ≠ .ended r := by
    intro r hr
    have := hended r hr
    rw [hopen] at this
    cases this
  have hrest : sw.pc.rest frameSize offered = [] := by
    rw [hpc]
    rfl
  rw [hrest, List.append_nil] at hsent
  rw [SendWorker.unread, hrest, List.append_nil] at hreads
  refine ⟨?_, hle, ?_, fun hshut => absurd (hopen.symm.trans hshut) (by simp), by simp, ?_, hended⟩
  · show sw.stream.written ++ item.wire frameSize offered = _
    rw [Lane.items_push, List.flatMap_append, List.flatMap_singleton, hsent]
  · have := hreads.append hrun item
    rw [List.append_assoc] at this
    exact this
  · rcases hclosed with hnone | ⟨-, hshut, -⟩
    · exact Or.inl hnone
    · rw [hopen] at hshut
      cases hshut

/-- The next bytes arrive. -/
theorem deliver (h : l.Linked frameSize offered sw w) {n : Nat}
    (hn : sw.stream.delivered + n ≤ sw.stream.written.length) :
    l.Linked frameSize offered
      { sw with stream := { sw.stream with delivered := sw.stream.delivered + n } }
      { w with inbox := w.inbox ++ (sw.stream.written.drop sw.stream.delivered).take n } := by
  obtain ⟨hsent, -, hreads, hshut, hok, hclosed, hended⟩ := h
  refine ⟨hsent, hn, ?_, hshut, hok, ?_, hended⟩
  · have hbytes : w.inbox ++ (sw.stream.written.drop sw.stream.delivered).take n ++
        (sw.stream.written.drop (sw.stream.delivered + n) ++ sw.pc.rest frameSize offered)
        = w.inbox ++ sw.unread frameSize offered := by
      rw [SendWorker.unread, ← List.drop_drop, List.append_assoc,
        ← List.append_assoc (List.take _ _), List.take_append_drop]
    show Worker.Reads frameSize offered _ l (w.inbox ++ _ ++ (_ ++ _))
    rw [hbytes]
    exact hreads.of_arrives _ _
  · rcases hclosed with hnone | ⟨heof, hdone, hall⟩
    · exact Or.inl hnone
    · exact Or.inr ⟨heof, hdone, by show sw.stream.delivered + n = sw.stream.written.length; omega⟩

/-- The end of the stream arrives, after everything. -/
theorem eof (h : l.Linked frameSize offered sw w) (hshut : sw.stream.shut = true)
    (hall : sw.stream.delivered = sw.stream.written.length) :
    l.Linked frameSize offered sw { w with closed := some .eof } :=
  { h with reads := h.reads.of_arrives _ _, closed := Or.inr ⟨rfl, hshut, hall⟩ }

/-- **The receiving worker goes on.** -/
theorem receive (h : l.Linked frameSize offered sw w) {p : Params} {env : Env} {w' : Worker}
    {io : IoAct} {e : Effect} (hpos : 0 < frameSize) (hmax : frameSize ≤ MAX_FRAME_PAYLOAD)
    (hexp : ∀ item ∈ l.todo, ∃ offset payload st,
      item.Expected p.blake3 offered env.files offset payload st)
    (hcount : ∀ id st, env.files.lookup id = some st → st.bitmap.count = st.layout.count)
    (hio : io ≠ .fail) (hstep : w.step p env io = some (w', e)) :
    ∃ l', Lane.Move offered env.files w io l e l' ∧ l'.Linked frameSize offered sw w' := by
  have hopen : w.closed = none ∨ (w.closed = some .eof ∧ sw.unread frameSize offered = []) := by
    rcases h.closed with hnone | ⟨heof, hshut, hall⟩
    · exact Or.inl hnone
    · refine Or.inr ⟨heof, ?_⟩
      rw [SendWorker.unread, hall, List.drop_length]
      rcases h.shut hshut with hpc | hpc <;> rw [hpc] <;> rfl
  obtain ⟨l', hmove, hreads, hclosed, heof⟩ :=
    h.reads.step hpos hmax hexp hcount rfl hopen hio hstep
  refine ⟨l', hmove, ?_, h.delivered_le, hreads, h.shut, h.sent_ok, hclosed ▸ h.closed, ?_⟩
  · rw [hmove.items_eq]
    exact h.sent
  · intro r hr
    rcases h.closed with hnone | ⟨-, hshut, -⟩
    · rw [heof r hr] at hnone
      cases hnone
    · exact hshut

end Lane.Linked

end AetherLink
