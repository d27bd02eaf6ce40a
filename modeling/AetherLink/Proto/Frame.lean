import AetherLink.Proto.Chunk

set_option autoImplicit false

/-! # Frame header

The fixed 32-byte header in front of every frame on a data stream, all fields little-endian:

```text
 0..2   magic u16          8..16  file_id u64
 2      version u8        16..24  offset  u64
 3      msg_type u8       24..28  length  u32
 4..6   flags u16         28..32  reserved u32
 6..8   reserved u16
``` -/

namespace AetherLink

open Bytes

def MAGIC : Nat := 0xAE10
def PROTOCOL_VERSION : UInt8 := 1
def HEADER_LEN : Nat := 32
def MAX_FRAME_PAYLOAD : Nat := 8 * 1024 * 1024

inductive MsgType where
  | control
  | fileData
  | fileEnd
  | keepalive
  deriving DecidableEq, Repr

/-- `self as u8`. -/
def MsgType.toU8 : MsgType → UInt8
  | .control => 0
  | .fileData => 1
  | .fileEnd => 2
  | .keepalive => 3

def MsgType.fromU8 (v : UInt8) : Except Proto.Error MsgType :=
  if v = 0 then .ok .control
  else if v = 1 then .ok .fileData
  else if v = 2 then .ok .fileEnd
  else if v = 3 then .ok .keepalive
  else .error (.unknownMessageType v)

/-- Flag bits this build knows: `END_OF_FILE` only. -/
def Flags.KNOWN : UInt16 := 1

structure FrameHeader where
  msgType : MsgType
  flags : UInt16
  fileId : UInt64
  offset : UInt64
  length : UInt32
  deriving DecidableEq, Repr

namespace FrameHeader

def new (msgType : MsgType) (fileId offset : UInt64) (length : UInt32) : FrameHeader :=
  { msgType := msgType, flags := 0, fileId := fileId, offset := offset, length := length }

def encode (h : FrameHeader) : List UInt8 :=
  leBytes 2 MAGIC ++ [PROTOCOL_VERSION] ++ [h.msgType.toU8] ++ leBytes 2 h.flags.toNat ++
    leBytes 2 0 ++ leBytes 8 h.fileId.toNat ++ leBytes 8 h.offset.toNat ++
    leBytes 4 h.length.toNat ++ leBytes 4 0

def decode (buf : List UInt8) : Except Proto.Error FrameHeader :=
  if buf.length < HEADER_LEN then .error (.shortHeader buf.length)
  else
    let magic := leNat (slice buf 0 2)
    if magic ≠ MAGIC then .error (.badMagic magic)
    else
      let version := byteAt buf 2
      if version ≠ PROTOCOL_VERSION then .error (.unsupportedVersion version)
      else
        match MsgType.fromU8 (byteAt buf 3) with
        | .error e => .error e
        | .ok msgType =>
            let rawFlags := leNat (slice buf 4 2)
            if UInt16.ofNat rawFlags &&& ~~~Flags.KNOWN ≠ 0 then .error (.unknownFlags rawFlags)
            else if leNat (slice buf 6 2) ≠ 0 ∨ leNat (slice buf 28 4) ≠ 0 then
              .error .reservedNotZero
            else
              let length := leNat (slice buf 24 4)
              if MAX_FRAME_PAYLOAD < length then .error (.frameTooLarge length)
              else if msgType = .keepalive ∧ length ≠ 0 then .error (.keepaliveWithPayload length)
              else .ok {
                msgType := msgType
                flags := UInt16.ofNat rawFlags
                fileId := UInt64.ofNat (leNat (slice buf 8 8))
                offset := UInt64.ofNat (leNat (slice buf 16 8))
                length := UInt32.ofNat length }

/-- What `decode` demands of the fields it does not fix. -/
structure Valid (h : FrameHeader) : Prop where
  length_le : h.length.toNat ≤ MAX_FRAME_PAYLOAD
  flags_known : h.flags &&& ~~~Flags.KNOWN = 0
  keepalive_empty : h.msgType = .keepalive → h.length = 0

@[simp] theorem length_encode (h : FrameHeader) : h.encode.length = HEADER_LEN := by
  simp [encode, HEADER_LEN]

theorem fromU8_toU8 (m : MsgType) : MsgType.fromU8 m.toU8 = .ok m := by
  cases m <;> rfl

/-- **Round trip.** A valid header decodes from its encoding. -/
theorem decode_encode {h : FrameHeader} (hv : h.Valid) : decode h.encode = .ok h := by
  have hmagic : slice h.encode 0 2 = leBytes 2 MAGIC := rfl
  have hver : byteAt h.encode 2 = PROTOCOL_VERSION := rfl
  have hmsg : byteAt h.encode 3 = h.msgType.toU8 := rfl
  have hflags : slice h.encode 4 2 = leBytes 2 h.flags.toNat := rfl
  have hres : slice h.encode 6 2 = leBytes 2 0 := rfl
  have hid : slice h.encode 8 8 = leBytes 8 h.fileId.toNat := rfl
  have hoff : slice h.encode 16 8 = leBytes 8 h.offset.toNat := rfl
  have hlen : slice h.encode 24 4 = leBytes 4 h.length.toNat := rfl
  have hres' : slice h.encode 28 4 = leBytes 4 0 := rfl
  have hlenle := hv.length_le
  have nmagic : leNat (leBytes 2 MAGIC) = MAGIC := leNat_leBytes (by decide)
  have nflags : leNat (leBytes 2 h.flags.toNat) = h.flags.toNat := leNat_leBytes h.flags.toNat_lt
  have nid : leNat (leBytes 8 h.fileId.toNat) = h.fileId.toNat := leNat_leBytes h.fileId.toNat_lt
  have noff : leNat (leBytes 8 h.offset.toNat) = h.offset.toNat := leNat_leBytes h.offset.toNat_lt
  have nlen : leNat (leBytes 4 h.length.toNat) = h.length.toNat := leNat_leBytes h.length.toNat_lt
  have nzero2 : leNat (leBytes 2 0) = 0 := rfl
  have nzero4 : leNat (leBytes 4 0) = 0 := rfl
  unfold decode
  simp only [hmagic, hver, hmsg, hflags, hres, hid, hoff, hlen, hres', length_encode, fromU8_toU8,
    nmagic, nflags, nid, noff, nlen, nzero2, nzero4]
  rw [if_neg (by simp), if_neg (by simp), if_neg (by simp), UInt16.ofNat_toNat,
    if_neg (by simp [hv.flags_known]), if_neg (by simp), if_neg (by omega), UInt64.ofNat_toNat,
    UInt64.ofNat_toNat, UInt32.ofNat_toNat, if_neg]
  rintro ⟨hk, hne⟩
  exact hne (by simp [hv.keepalive_empty hk])

theorem toU8_of_fromU8 {v : UInt8} {m : MsgType} (h : MsgType.fromU8 v = .ok m) : m.toU8 = v := by
  unfold MsgType.fromU8 at h
  split at h
  · next hv =>
      cases h
      exact hv.symm
  · split at h
    · next hv =>
        cases h
        exact hv.symm
    · split at h
      · next hv =>
          cases h
          exact hv.symm
      · split at h
        · next hv =>
            cases h
            exact hv.symm
        · cases h

/-- A field that is there is the encoding of the number it reads as. -/
theorem slice_eq_leBytes {b : List UInt8} {off w : Nat} (h : off + w ≤ b.length) :
    slice b off w = leBytes w (leNat (slice b off w)) := by
  have hlen := length_slice_of_le h
  nth_rewrite 1 [← leBytes_leNat (slice b off w)]
  rw [hlen]

/-- The first 32 bytes, field by field. -/
theorem take_header {b : List UInt8} (h : HEADER_LEN ≤ b.length) :
    b.take HEADER_LEN = slice b 0 2 ++ [byteAt b 2] ++ [byteAt b 3] ++ slice b 4 2 ++ slice b 6 2 ++
      slice b 8 8 ++ slice b 16 8 ++ slice b 24 4 ++ slice b 28 4 := by
  have hbyte : ∀ n, n < b.length → slice b n 1 = [byteAt b n] := by
    intro n hn
    rw [slice, List.drop_eq_getElem_cons hn, List.take_succ_cons, List.take_zero,
      byteAt, List.getD_eq_getElem?_getD, List.getElem?_eq_getElem hn, Option.getD_some]
  have h32 : 32 ≤ b.length := h
  rw [← hbyte 2 (by omega), ← hbyte 3 (by omega), HEADER_LEN]
  have htake : ∀ n k, b.take (n + k) = b.take n ++ slice b n k := fun n k => List.take_add
  rw [show 32 = 28 + 4 by rfl, htake, show 28 = 24 + 4 by rfl, htake, show 24 = 16 + 8 by rfl, htake,
    show 16 = 8 + 8 by rfl, htake, show 8 = 6 + 2 by rfl, htake, show 6 = 4 + 2 by rfl, htake,
    show 4 = 3 + 1 by rfl, htake, show 3 = 2 + 1 by rfl, htake]
  rfl

/-- The header that the checked fields make is valid, and encodes to the bytes it was read from. -/
theorem decoded_fields {b : List UInt8} {msgType : MsgType} (hlen : 32 ≤ b.length)
    (hmagic : leNat (slice b 0 2) = MAGIC) (hver : byteAt b 2 = PROTOCOL_VERSION)
    (hmsg : MsgType.fromU8 (byteAt b 3) = .ok msgType)
    (hflags : UInt16.ofNat (leNat (slice b 4 2)) &&& ~~~Flags.KNOWN = 0)
    (hres : leNat (slice b 6 2) = 0 ∧ leNat (slice b 28 4) = 0)
    (hmax : leNat (slice b 24 4) ≤ MAX_FRAME_PAYLOAD)
    (hkeep : ¬ (msgType = .keepalive ∧ leNat (slice b 24 4) ≠ 0)) :
    let h : FrameHeader :=
      { msgType := msgType
        flags := UInt16.ofNat (leNat (slice b 4 2))
        fileId := UInt64.ofNat (leNat (slice b 8 8))
        offset := UInt64.ofNat (leNat (slice b 16 8))
        length := UInt32.ofNat (leNat (slice b 24 4)) }
    h.Valid ∧ b.take HEADER_LEN = h.encode := by
  have hread : ∀ off w, off + w ≤ 32 → leNat (slice b off w) < 256 ^ w := by
    intro off w hoff
    have hlt := leNat_lt (slice b off w)
    rwa [length_slice_of_le (by omega)] at hlt
  have nflags : (UInt16.ofNat (leNat (slice b 4 2))).toNat = leNat (slice b 4 2) :=
    Nat.mod_eq_of_lt (hread 4 2 (by omega))
  have nid : (UInt64.ofNat (leNat (slice b 8 8))).toNat = leNat (slice b 8 8) :=
    Nat.mod_eq_of_lt (hread 8 8 (by omega))
  have noff : (UInt64.ofNat (leNat (slice b 16 8))).toNat = leNat (slice b 16 8) :=
    Nat.mod_eq_of_lt (hread 16 8 (by omega))
  have nlen : (UInt32.ofNat (leNat (slice b 24 4))).toNat = leNat (slice b 24 4) :=
    Nat.mod_eq_of_lt (hread 24 4 (by omega))
  refine ⟨⟨by rwa [nlen], hflags, fun hk => ?_⟩, ?_⟩
  · have hzero : leNat (slice b 24 4) = 0 := by
      by_contra hne
      exact hkeep ⟨hk, hne⟩
    simp [hzero]
  · rw [take_header hlen, encode]
    simp only [nflags, nid, noff, nlen]
    have hcut := fun off w (hoff : off + w ≤ 32) =>
      (slice_eq_leBytes (by omega) : slice b off w = leBytes w (leNat (slice b off w)))
    have e0 := hcut 0 2 (by omega)
    have e6 := hcut 6 2 (by omega)
    have e28 := hcut 28 4 (by omega)
    rw [hmagic] at e0
    rw [hres.1] at e6
    rw [hres.2] at e28
    rw [e0, e6, e28, hver, toU8_of_fromU8 hmsg, ← hcut 4 2 (by omega), ← hcut 8 8 (by omega),
      ← hcut 16 8 (by omega), ← hcut 24 4 (by omega)]

/-- **What decodes is an encoding.** -/
theorem decode_ok {b : List UInt8} {h : FrameHeader} (hdec : decode b = .ok h) :
    HEADER_LEN ≤ b.length ∧ h.Valid ∧ b.take HEADER_LEN = h.encode := by
  unfold decode at hdec
  split at hdec
  · cases hdec
  · next hshort =>
      have hlen : HEADER_LEN ≤ b.length := Nat.not_lt.1 hshort
      have h32 : 32 ≤ b.length := hlen
      simp only at hdec
      split at hdec
      · cases hdec
      · next hmagic =>
          split at hdec
          · cases hdec
          · next hver =>
              split at hdec
              · cases hdec
              · next msgType hmsg =>
                  split at hdec
                  · cases hdec
                  · next hflags =>
                      split at hdec
                      · cases hdec
                      · next hres =>
                          split at hdec
                          · cases hdec
                          · next hlarge =>
                              split at hdec
                              · cases hdec
                              · next hkeep =>
                                  cases hdec
                                  exact ⟨hlen, decoded_fields h32 (not_not.1 hmagic) (not_not.1 hver)
                                    hmsg (not_not.1 hflags) (by omega) (by omega) hkeep⟩

/-- Only the first 32 bytes are looked at. -/
theorem decode_take {b : List UInt8} (h : HEADER_LEN ≤ b.length) :
    decode (b.take HEADER_LEN) = decode b := by
  have hlen : (b.take HEADER_LEN).length = HEADER_LEN := by
    rw [List.length_take, Nat.min_eq_left h]
  have hslice : ∀ off w, off + w ≤ 32 → slice (b.take HEADER_LEN) off w = slice b off w := by
    intro off w hoff
    rw [slice, slice, List.drop_take, List.take_take, Nat.min_eq_left]
    rw [HEADER_LEN]
    omega
  have hbyte : ∀ n, n < 32 → byteAt (b.take HEADER_LEN) n = byteAt b n := by
    intro n hn
    rw [byteAt, byteAt, List.getD_eq_getElem?_getD, List.getD_eq_getElem?_getD,
      List.getElem?_take_of_lt (show n < HEADER_LEN from hn)]
  unfold decode
  simp only [hlen, hslice 0 2 (by omega), hbyte 2 (by omega), hbyte 3 (by omega),
    hslice 4 2 (by omega), hslice 6 2 (by omega), hslice 28 4 (by omega), hslice 24 4 (by omega),
    hslice 8 8 (by omega), hslice 16 8 (by omega)]
  rw [if_neg (Nat.lt_irrefl _), if_neg (Nat.not_lt.2 h)]

/-- **The header codec is exact.** Decoding accepts the encodings of valid headers, whatever follows
    them, and nothing else; so the two undo each other, and a header has one encoding. -/
theorem decode_exact :
    (∀ b h, decode b = .ok h ↔
      HEADER_LEN ≤ b.length ∧ h.Valid ∧ b.take HEADER_LEN = h.encode) ∧
    (∀ h : FrameHeader, h.Valid → decode h.encode = .ok h) ∧
    (∀ b h, decode b = .ok h → h.encode = b.take HEADER_LEN) ∧
    (∀ b b' h, decode b = .ok h → decode b' = .ok h → b.take HEADER_LEN = b'.take HEADER_LEN) ∧
    (∀ b, (¬ ∃ h : FrameHeader, HEADER_LEN ≤ b.length ∧ h.Valid ∧ b.take HEADER_LEN = h.encode) →
      ∃ e, decode b = .error e) := by
  have hiff : ∀ b h, decode b = .ok h ↔
      HEADER_LEN ≤ b.length ∧ h.Valid ∧ b.take HEADER_LEN = h.encode := by
    intro b h
    refine ⟨decode_ok, fun ⟨hlen, hv, htake⟩ => ?_⟩
    rw [← decode_take hlen, htake, decode_encode hv]
  refine ⟨hiff, fun h hv => decode_encode hv, fun b h hdec => ((hiff b h).1 hdec).2.2.symm,
    fun b b' h hdec hdec' => ?_, fun b hnone => ?_⟩
  · rw [((hiff b h).1 hdec).2.2, ((hiff b' h).1 hdec').2.2]
  · cases hdec : decode b with
    | error e => exact ⟨e, rfl⟩
    | ok h => exact absurd ⟨h, (hiff b h).1 hdec⟩ hnone

end FrameHeader

end AetherLink
