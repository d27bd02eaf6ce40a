import AetherLink.Core.Send

set_option autoImplicit false

/-! # A chunk on the wire

What a chunk is on its stream: one run of frames, each a header and the next part of the payload.
The bytes of the run are defined here over lists, so that "this frame, and then the rest" is an
append, and a worker in the middle of a chunk is at a number of a part. -/

namespace AetherLink

open Bytes

/-! ## Frames of a payload -/

/-- The `n`-th frame of a chunk. -/
def frame (frameSize : Nat) (item : WorkItem) (offset : Nat) (payload : List UInt8) (n : Nat) :
    List UInt8 :=
  (partHeader frameSize item offset n (slice payload (n * frameSize) frameSize)).encode ++
    slice payload (n * frameSize) frameSize

/-- The frames of a chunk from the `n`-th on. -/
def framesFrom (frameSize : Nat) (item : WorkItem) (offset : Nat) (payload : List UInt8) (n : Nat) :
    List UInt8 :=
  (List.range' n (divCeil payload.length frameSize - n)).flatMap (frame frameSize item offset payload)

section Frames

variable {frameSize : Nat} (item : WorkItem) (offset : Nat) {payload : List UInt8} {n : Nat}

/-- While bytes are left there is one more frame. -/
theorem framesFrom_of_lt (hpos : 0 < frameSize) (h : n * frameSize < payload.length) :
    framesFrom frameSize item offset payload n
      = frame frameSize item offset payload n ++
        framesFrom frameSize item offset payload (n + 1) := by
  have hlt := (lt_divCeil_iff hpos).2 h
  have hsucc : divCeil payload.length frameSize - n
      = divCeil payload.length frameSize - (n + 1) + 1 := by
    omega
  rw [framesFrom, hsucc, List.range'_succ, List.flatMap_cons]
  rfl

/-- Past the last byte there is none. -/
theorem framesFrom_of_le (hpos : 0 < frameSize) (h : payload.length ≤ n * frameSize) :
    framesFrom frameSize item offset payload n = [] := by
  have hge : ¬ n < divCeil payload.length frameSize :=
    fun hlt => absurd ((lt_divCeil_iff hpos).1 hlt) (Nat.not_lt.2 h)
  rw [framesFrom, Nat.sub_eq_zero_of_le (Nat.not_lt.1 hge)]
  rfl

/-- The parts so far and the next one. -/
theorem take_append_part (frameSize : Nat) (payload : List UInt8) (n : Nat) :
    payload.take (n * frameSize) ++ slice payload (n * frameSize) frameSize
      = payload.take ((n + 1) * frameSize) := by
  rw [Nat.succ_mul, List.take_add, slice]

theorem partOf_of_lt (h : n * frameSize < payload.length) :
    partOf frameSize payload n = some (slice payload (n * frameSize) frameSize) :=
  if_pos h

theorem partOf_of_le (h : payload.length ≤ n * frameSize) : partOf frameSize payload n = none :=
  if_neg (Nat.not_lt.2 h)

theorem length_part_le (frameSize : Nat) (payload : List UInt8) (n : Nat) :
    (slice payload (n * frameSize) frameSize).length ≤ frameSize := by
  rw [length_slice]
  exact Nat.min_le_left _ _

/-- The length field holds the length of the part. -/
theorem partHeader_length (hmax : frameSize ≤ MAX_FRAME_PAYLOAD) :
    (partHeader frameSize item offset n (slice payload (n * frameSize) frameSize)).length.toNat
      = (slice payload (n * frameSize) frameSize).length := by
  have hle := length_part_le frameSize payload n
  have hlt : MAX_FRAME_PAYLOAD < 2 ^ 32 := by decide
  simp only [partHeader, FrameHeader.new, UInt32.toNat_ofNat']
  exact Nat.mod_eq_of_lt (by omega)

/-- The offset field holds the offset of the part in the file. -/
theorem partHeader_offset (h : n * frameSize < payload.length)
    (hend : offset + payload.length < 2 ^ 64) :
    (partHeader frameSize item offset n (slice payload (n * frameSize) frameSize)).offset.toNat
      = offset + n * frameSize := by
  simp only [partHeader, FrameHeader.new, UInt64.toNat_ofNat']
  exact Nat.mod_eq_of_lt (by omega)

/-- **What follows a frame's place on the wire is read back as its header.** -/
theorem decode_frame (hmax : frameSize ≤ MAX_FRAME_PAYLOAD) {bytes : List UInt8}
    (h : frame frameSize item offset payload n <+: bytes) :
    FrameHeader.decode (bytes.take HEADER_LEN)
      = .ok (partHeader frameSize item offset n (slice payload (n * frameSize) frameSize)) := by
  obtain ⟨rest, rfl⟩ := h
  rw [frame, List.append_assoc, List.take_left' (FrameHeader.length_encode _)]
  refine FrameHeader.decode_encode ⟨?_, ?_, fun hkeep => ?_⟩
  · rw [partHeader_length item offset hmax]
    exact (length_part_le _ _ _).trans hmax
  · show (0 : UInt16) &&& ~~~Flags.KNOWN = 0
    decide
  · rw [partHeader, FrameHeader.new] at hkeep
    cases hkeep

end Frames

/-! ## Frames of a work item -/

namespace WorkItem

/-- The frames of the chunk the item names, from the `n`-th on. -/
def framesFrom (frameSize : Nat) (offered : List (SourceFile × FileEntry)) (item : WorkItem)
    (n : Nat) : List UInt8 :=
  (chunkOf offered item).toOption.elim [] fun x =>
    AetherLink.framesFrom frameSize item x.1 x.2 n

/-- The `n`-th part of it. -/
def part (frameSize : Nat) (offered : List (SourceFile × FileEntry)) (item : WorkItem) (n : Nat) :
    List UInt8 :=
  (chunkOf offered item).toOption.elim [] fun x => slice x.2 (n * frameSize) frameSize

/-- The whole run. -/
def wire (frameSize : Nat) (offered : List (SourceFile × FileEntry)) (item : WorkItem) :
    List UInt8 :=
  item.framesFrom frameSize offered 0

variable {frameSize : Nat} {offered : List (SourceFile × FileEntry)} {item : WorkItem}
  {offset : Nat} {payload : List UInt8}

theorem framesFrom_eq (h : chunkOf offered item = .ok (offset, payload)) (n : Nat) :
    item.framesFrom frameSize offered n
      = AetherLink.framesFrom frameSize item offset payload n := by
  rw [framesFrom, h]
  rfl

theorem part_eq (h : chunkOf offered item = .ok (offset, payload)) (n : Nat) :
    item.part frameSize offered n = slice payload (n * frameSize) frameSize := by
  rw [part, h]
  rfl

end WorkItem

/-- What a sending worker has still to write of the chunk in hand. -/
def SendWorkerPc.rest (frameSize : Nat) (offered : List (SourceFile × FileEntry)) :
    SendWorkerPc → List UInt8
  | .header item n => item.framesFrom frameSize offered n
  | .part item n => item.part frameSize offered n ++ item.framesFrom frameSize offered (n + 1)
  | _ => []

end AetherLink
