import AetherLink.Proofs.Agreement
import AetherLink.Spec.Wire

set_option autoImplicit false

/-! # What the sender emits can be read

A stream worker cuts a chunk into parts of the configured frame size, whatever that is. The header in
front of a part is accepted by `FrameHeader::decode` as long as the part is no longer than
`MAX_FRAME_PAYLOAD`, and `payload.chunks(frame_size)` panics over zero, so a chunk goes out readable
exactly for the frame sizes of `emission_decodable_iff`. -/

namespace AetherLink

open Bytes

/-! ## A chunk and its parts -/

/-- The chunk of an item that is there. -/
theorem chunkOf_ok {offered : List (SourceFile × FileEntry)} {item : WorkItem}
    {x : SourceFile × FileEntry} (hx : offered[item.fileIndex]? = some x)
    (hi : item.chunkIndex < x.1.layout.count) :
    chunkOf offered item = .ok (x.1.layout.start item.chunkIndex,
      slice x.1.map (x.1.layout.start item.chunkIndex) (x.1.layout.len item.chunkIndex)) := by
  obtain ⟨src, entry⟩ := x
  have hrange := src.layout.range_eq hi
  simp only [chunkOf, hx, SourceFile.chunk, hrange, Except.map]

/-- It has the length its layout says. -/
theorem length_chunk (src : SourceFile) {i : Nat} (hi : i < src.layout.count) :
    (slice src.map (src.layout.start i) (src.layout.len i)).length = src.layout.len i := by
  refine length_slice_of_le ?_
  rw [← src.size_eq]
  exact src.layout.start_add_len_le hi

/-- The header of a part is valid exactly if the part is not too long. -/
theorem partHeader_valid_iff {frameSize n offset : Nat} {item : WorkItem} {part : List UInt8}
    (hlt : part.length < 2 ^ 32) :
    (partHeader frameSize item offset n part).Valid ↔ part.length ≤ MAX_FRAME_PAYLOAD := by
  have hlen : (partHeader frameSize item offset n part).length.toNat = part.length := by
    simp only [partHeader, FrameHeader.new, UInt32.toNat_ofNat']
    exact Nat.mod_eq_of_lt hlt
  constructor
  · intro h
    rw [← hlen]
    exact h.length_le
  · intro h
    refine ⟨hlen.trans_le h, ?_, fun hkeep => ?_⟩
    · show (0 : UInt16) &&& ~~~Flags.KNOWN = 0
      decide
    · rw [partHeader, FrameHeader.new] at hkeep
      cases hkeep

/-! ## A worker at the chunk -/

/-- What a worker makes of the item at the head of the queue can be read by the peer: taking it up
    does not panic, and each header it writes decodes and is followed by as many bytes as it says. -/
structure WorkItem.Emitted (frameSize : UInt32) (s : Sender) (item : WorkItem) : Prop where
  starts : ∀ pc e, SendWorkerPc.popping.step frameSize s .next = some (pc, e) →
    pc ≠ .ended (.error panicked)
  headers : ∀ n pc bytes, (SendWorkerPc.header item n).step frameSize s .next
      = some (pc, .write bytes) →
    ∃ header part, FrameHeader.decode bytes = .ok header ∧ header.msgType = .fileData ∧
      pc.step frameSize s .next = some (.header item (n + 1), .write part) ∧
      part.length = header.length.toNat

section Item

variable {frameSize : UInt32} {s : Sender} {item : WorkItem} {offset : Nat} {payload : List UInt8}

/-- The worker writes the header of the next part, if there is one. -/
theorem SendWorkerPc.step_header (hchunk : chunkOf s.offered item = .ok (offset, payload)) {n : Nat}
    {pc : SendWorkerPc} {bytes : List UInt8}
    (h : (SendWorkerPc.header item n).step frameSize s .next = some (pc, .write bytes)) :
    ∃ part, partOf frameSize.toNat payload n = some part ∧ pc = .part item n ∧
      bytes = (partHeader frameSize.toNat item offset n part).encode := by
  simp only [step, hchunk] at h
  split at h
  · cases h
  · next hio => cases hio
  · next part hpart hio =>
      cases h
      exact ⟨part, hpart, rfl, rfl⟩
  · next hio => cases hio

theorem SendWorkerPc.step_part (hchunk : chunkOf s.offered item = .ok (offset, payload)) {n : Nat}
    {part : List UInt8} (hpart : partOf frameSize.toNat payload n = some part) :
    (SendWorkerPc.part item n).step frameSize s .next = some (.header item (n + 1), .write part) := by
  simp only [step, hchunk, hpart]

theorem length_partOf {size n : Nat} {part : List UInt8} (h : partOf size payload n = some part) :
    part.length ≤ size ∧ part.length ≤ payload.length := by
  unfold partOf at h
  split at h
  · cases h
    rw [length_slice]
    omega
  · cases h

theorem WorkItem.Emitted.of_sizes (hchunk : chunkOf s.offered item = .ok (offset, payload))
    {rest : List WorkItem} (hqueue : s.queue = item :: rest) (hpos : 0 < frameSize.toNat)
    (hlt : payload.length < 2 ^ 32)
    (hmax : frameSize.toNat ≤ MAX_FRAME_PAYLOAD ∨ payload.length ≤ MAX_FRAME_PAYLOAD) :
    item.Emitted frameSize s := by
  have hne : frameSize ≠ 0 := by
    rintro rfl
    exact absurd hpos (by decide)
  refine ⟨fun pc e h => ?_, fun n pc bytes h => ?_⟩
  · simp only [SendWorkerPc.step, hqueue, hchunk, hne, if_false] at h
    cases h
    simp
  · obtain ⟨part, hpart, rfl, rfl⟩ := SendWorkerPc.step_header hchunk h
    obtain ⟨hsize, hpayload⟩ := length_partOf hpart
    have hlen : part.length < 2 ^ 32 := by omega
    refine ⟨_, part, FrameHeader.decode_encode ((partHeader_valid_iff hlen).2 ?_), rfl,
      SendWorkerPc.step_part hchunk hpart, ?_⟩
    · rcases hmax with hmax | hmax <;> omega
    · simp only [partHeader, FrameHeader.new, UInt32.toNat_ofNat']
      exact (Nat.mod_eq_of_lt hlen).symm

/-- `chunks(0)` panics. -/
theorem WorkItem.Emitted.frameSize_pos (h : item.Emitted frameSize s)
    (hchunk : chunkOf s.offered item = .ok (offset, payload)) {rest : List WorkItem}
    (hqueue : s.queue = item :: rest) : 0 < frameSize.toNat := by
  rw [Nat.pos_iff_ne_zero]
  intro hzero
  have hframe : frameSize = 0 := UInt32.toNat_inj.1 hzero
  refine h.starts _ .pop ?_ rfl
  simp only [SendWorkerPc.step, hqueue, hchunk, hframe, if_true]

/-- The first part is as long as any. -/
theorem WorkItem.Emitted.length_le (h : item.Emitted frameSize s)
    (hchunk : chunkOf s.offered item = .ok (offset, payload)) (hpayload : 0 < payload.length) :
    min frameSize.toNat payload.length ≤ MAX_FRAME_PAYLOAD := by
  have hlt : 0 * frameSize.toNat < payload.length := by
    rw [Nat.zero_mul]
    exact hpayload
  have hstep : (SendWorkerPc.header item 0).step frameSize s .next
      = some (.part item 0, .write (partHeader frameSize.toNat item offset 0
          (slice payload (0 * frameSize.toNat) frameSize.toNat)).encode) := by
    simp only [SendWorkerPc.step, hchunk, partOf_of_lt hlt]
  obtain ⟨header, part, hdecode, -, hnext, hlen⟩ := h.headers 0 _ _ hstep
  rw [SendWorkerPc.step_part hchunk (partOf_of_lt hlt)] at hnext
  cases hnext
  have hvalid := (FrameHeader.decode_ok hdecode).2.1.length_le
  rw [← hlen, length_slice] at hvalid
  omega

end Item

/-- **What the sender emits is decodable**, chunk by chunk, exactly if the frame size is not zero and
    no part of the chunk is longer than `MAX_FRAME_PAYLOAD`. -/
theorem emission_decodable_iff {frameSize : UInt32} {s : Sender} {item : WorkItem}
    {rest : List WorkItem} (hqueue : s.queue = item :: rest) {x : SourceFile × FileEntry}
    (hx : s.offered[item.fileIndex]? = some x) (hi : item.chunkIndex < x.1.layout.count) :
    item.Emitted frameSize s ↔ 0 < frameSize.toNat ∧ (frameSize.toNat ≤ MAX_FRAME_PAYLOAD ∨
      x.1.layout.len item.chunkIndex ≤ MAX_FRAME_PAYLOAD) := by
  have hchunk := chunkOf_ok hx hi
  have hlen := length_chunk x.1 hi
  have hpos := x.1.layout.len_pos hi
  constructor
  · intro h
    have hmin := h.length_le hchunk (hlen.symm ▸ hpos)
    rw [hlen] at hmin
    exact ⟨h.frameSize_pos hchunk hqueue, by omega⟩
  · rintro ⟨hframe, hmax⟩
    refine .of_sizes hchunk hqueue hframe ?_ ?_
    · rw [hlen]
      exact lt_of_le_of_lt (x.1.layout.len_le _) x.1.layout.chunkSize_lt
    · rwa [hlen]

/-- A sender about to send the one chunk of a file of one byte. -/
theorem exists_oneByteSender : ∃ (s : Sender) (x : SourceFile × FileEntry),
    oneByteParties.Offers s.offered ∧ s.queue = [⟨0, 0⟩] ∧ s.offered[0]? = some x ∧
      0 < x.1.layout.count := by
  have hopens : (openSources oneByteParties.blake3 65536
      (oneByteParties.files.zip [{ opens := true, stats := true, maps := true }]) 0).toOption.any
      (fun offered => offered[0]?.any fun x => decide (0 < x.1.layout.count)) = true := by
    decide +kernel
  obtain ⟨offered, hoffered, hx⟩ := exists_ok_of_any hopens
  obtain ⟨x, hx, hcount⟩ := (Option.any_eq_true _ _).1 hx
  exact ⟨{ Sender.init with offered := offered, queue := [⟨0, 0⟩] }, x,
    ⟨[{ opens := true, stats := true, maps := true }], rfl, hoffered⟩, rfl, hx,
    of_decide_eq_true hcount⟩

/-- Frames of 65536 bytes are decodable, and frames of zero bytes are not written. -/
theorem emission_decodable_iff_oneByte :
    ∃ (s : Sender) (x : SourceFile × FileEntry), s.queue = [⟨0, 0⟩] ∧ s.offered[0]? = some x ∧
      0 < x.1.layout.count ∧ (⟨0, 0⟩ : WorkItem).Emitted 65536 s ∧
      ¬ (⟨0, 0⟩ : WorkItem).Emitted 0 s := by
  obtain ⟨s, x, -, hqueue, hx, hcount⟩ := exists_oneByteSender
  refine ⟨s, x, hqueue, hx, hcount, ?_, fun h => ?_⟩
  · exact (emission_decodable_iff hqueue hx hcount).2 ⟨by decide, Or.inl (by decide)⟩
  · exact absurd ((emission_decodable_iff hqueue hx hcount).1 h).1 (by decide)

/-- Over a frame size of zero the worker panics before it has written a byte. -/
theorem zero_frame_size_panics :
    ¬ ∀ (c : Parties) (frameSize : UInt32) (s : Sender) (item : WorkItem) (rest : List WorkItem)
      (x : SourceFile × FileEntry), c.Offers s.offered → s.queue = item :: rest →
      s.offered[item.fileIndex]? = some x → item.chunkIndex < x.1.layout.count →
      item.Emitted frameSize s := by
  intro hclaim
  obtain ⟨s, x, hoffers, hqueue, hx, hcount⟩ := exists_oneByteSender
  have hemitted := hclaim oneByteParties 0 s ⟨0, 0⟩ [] x hoffers hqueue hx hcount
  exact absurd (hemitted.frameSize_pos (chunkOf_ok hx hcount) hqueue) (by decide)

end AetherLink
