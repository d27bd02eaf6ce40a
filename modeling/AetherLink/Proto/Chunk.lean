import AetherLink.Lib.Bytes
import Mathlib.Tactic.Common

set_option autoImplicit false

/-! # Chunk geometry and chunk hashes

`ChunkLayout` cuts a file into chunks of one size, the last one short; a chunk is what is hashed,
verified and resumed. BLAKE3 is outside the repository, so every definition that hashes takes it as
its first argument `blake3`, an arbitrary function to 32-byte digests, and what the development
relies on is stated where it is used, as `CollisionFreeOn`. -/

namespace AetherLink

open Bytes

/-! ## Errors of the protocol crate -/

namespace Proto

inductive Error where
  | shortHeader (got : Nat)
  | badMagic (magic : Nat)
  | unsupportedVersion (version : UInt8)
  | unknownMessageType (value : UInt8)
  | unknownFlags (flags : Nat)
  | reservedNotZero
  | frameTooLarge (length : Nat)
  | keepaliveWithPayload (length : Nat)
  | invalidChunkSize (size : Nat)
  | chunkOutOfRange (index count : Nat)
  | offsetOutOfRange (offset fileSize : Nat)
  | chunkHashConflict (index : Nat)
  | bitmapLengthMismatch (got expected : Nat)
  | bitmapPaddingSet
  | manifestTooLarge (files : Nat)
  | duplicateFileId (id : UInt64)
  | duplicatePath (path : String)
  | unsafePath (path reason : String)
  deriving DecidableEq, Repr

end Proto

/-! ## Hashes -/

/-- `[u8; 32]`. -/
abbrev Hash : Type := { bs : List UInt8 // bs.length = 32 }

/-- The hash function of the `blake3` crate, as the code sees it. -/
abbrev Blake3 : Type := List UInt8 → Hash

/-- No byte string collides with another on a digest in `T`. No function from all byte strings to 32
    bytes is injective, so the digests that matter (those an offer commits to) are named. -/
def CollisionFreeOn (blake3 : Blake3) (T : Set Hash) : Prop :=
  ∀ x y, blake3 x = blake3 y → blake3 x ∈ T → x = y

/-- `b"aetherlink.file-root.v1"`. -/
def ROOT_DOMAIN : List UInt8 :=
  [0x61, 0x65, 0x74, 0x68, 0x65, 0x72, 0x6c, 0x69, 0x6e, 0x6b, 0x2e, 0x66, 0x69, 0x6c, 0x65, 0x2d,
    0x72, 0x6f, 0x6f, 0x74, 0x2e, 0x76, 0x31]

/-- `hashes.concat()`: the digests one after the other. -/
def concatHashes (hs : List Hash) : List UInt8 :=
  hs.flatMap Subtype.val

def hashChunk (blake3 : Blake3) (bytes : List UInt8) : Hash :=
  blake3 bytes

/-- What is fed to the hasher for a file root: domain, number of chunks, digests in index order. -/
def rootPreimage (chunkHashes : List Hash) : List UInt8 :=
  ROOT_DOMAIN ++ leBytes 8 chunkHashes.length ++ concatHashes chunkHashes

/-- File root over chunk hashes in index order. -/
def rootFromChunkHashes (blake3 : Blake3) (chunkHashes : List Hash) : Hash :=
  blake3 (rootPreimage chunkHashes)

theorem concatHashes_cons (h : Hash) (hs : List Hash) :
    concatHashes (h :: hs) = h.1 ++ concatHashes hs := rfl

@[simp] theorem length_concatHashes (hs : List Hash) : (concatHashes hs).length = 32 * hs.length := by
  induction hs with
  | nil => rfl
  | cons h hs ih =>
      rw [concatHashes_cons, List.length_append, h.2, ih, List.length_cons]
      omega

/-- Digests have one width, so their concatenation can be cut in one way only. -/
theorem concatHashes_inj {hs hs' : List Hash} (h : concatHashes hs = concatHashes hs') :
    hs = hs' := by
  induction hs generalizing hs' with
  | nil =>
      have hlen := congrArg List.length h
      rw [length_concatHashes, length_concatHashes, List.length_nil] at hlen
      exact (List.eq_nil_of_length_eq_zero (by omega)).symm
  | cons x hs ih =>
      cases hs' with
      | nil =>
          have hlen := congrArg List.length h
          rw [length_concatHashes, length_concatHashes, List.length_nil, List.length_cons] at hlen
          omega
      | cons y hs' =>
          rw [concatHashes_cons, concatHashes_cons] at h
          obtain ⟨hxy, hrest⟩ := List.append_inj h (x.2.trans y.2.symm)
          rw [Subtype.ext hxy, ih hrest]

/-- **The root commits to the hash list.** -/
theorem rootFromChunkHashes_inj {blake3 : Blake3} {T : Set Hash} (hcf : CollisionFreeOn blake3 T)
    {hs hs' : List Hash} (hT : rootFromChunkHashes blake3 hs ∈ T)
    (h : rootFromChunkHashes blake3 hs = rootFromChunkHashes blake3 hs') : hs = hs' := by
  have hpre : rootPreimage hs = rootPreimage hs' := hcf _ _ h hT
  unfold rootPreimage at hpre
  have hlen : (ROOT_DOMAIN ++ leBytes 8 hs.length).length
      = (ROOT_DOMAIN ++ leBytes 8 hs'.length).length := by simp
  exact concatHashes_inj (List.append_inj hpre hlen).2

/-! ## Chunk geometry -/

def MIN_CHUNK_SIZE : Nat := 64 * 1024
def MAX_CHUNK_SIZE : Nat := 64 * 1024 * 1024

/-- `u32::is_power_of_two`. -/
def isPowerOfTwo (n : Nat) : Bool :=
  2 ^ n.log2 == n

/-- `u64::div_ceil`. -/
def divCeil (a b : Nat) : Nat :=
  (a + b - 1) / b

theorem lt_divCeil_iff {a b n : Nat} (hb : 0 < b) : n < divCeil a b ↔ n * b < a := by
  rw [divCeil, ← Nat.succ_le_iff, Nat.le_div_iff_mul_le hb, Nat.succ_mul]
  omega

/-- Chunk geometry for one file. Only `ChunkLayout.new` checks a chunk size, so the facts it checks
    are part of the value. -/
structure ChunkLayout where
  fileSize : Nat
  chunkSize : Nat
  count : Nat
  fileSize_lt : fileSize < 2 ^ 64
  min_le : MIN_CHUNK_SIZE ≤ chunkSize
  le_max : chunkSize ≤ MAX_CHUNK_SIZE
  powerOfTwo : isPowerOfTwo chunkSize = true
  count_eq : count = divCeil fileSize chunkSize
  deriving DecidableEq

namespace ChunkLayout

def new (fileSize : UInt64) (chunkSize : UInt32) : Except Proto.Error ChunkLayout :=
  if hband : MIN_CHUNK_SIZE ≤ chunkSize.toNat ∧ chunkSize.toNat ≤ MAX_CHUNK_SIZE then
    if hpow : isPowerOfTwo chunkSize.toNat = true then
      .ok {
        fileSize := fileSize.toNat
        chunkSize := chunkSize.toNat
        count := divCeil fileSize.toNat chunkSize.toNat
        fileSize_lt := fileSize.toNat_lt
        min_le := hband.1
        le_max := hband.2
        powerOfTwo := hpow
        count_eq := rfl }
    else .error (.invalidChunkSize chunkSize.toNat)
  else .error (.invalidChunkSize chunkSize.toNat)

/-- Byte range covered by `index`: offset and length. The product is a `u64` and the length is
    narrowed to a `u32`. -/
def range (l : ChunkLayout) (index : Nat) : Except Proto.Error (Nat × Nat) :=
  if l.count ≤ index then .error (.chunkOutOfRange index l.count)
  else
    let offset := index * l.chunkSize % 2 ^ 64
    .ok (offset, min (l.fileSize - offset) l.chunkSize % 2 ^ 32)

/-- Chunk containing `offset`. -/
def indexOf (l : ChunkLayout) (offset : Nat) : Except Proto.Error Nat :=
  if l.fileSize ≤ offset then .error (.offsetOutOfRange offset l.fileSize)
  else .ok (offset / l.chunkSize)

/-- First byte of chunk `index`. -/
def start (l : ChunkLayout) (index : Nat) : Nat :=
  index * l.chunkSize

/-- Length of chunk `index`; the last one is short unless the file divides evenly. -/
def len (l : ChunkLayout) (index : Nat) : Nat :=
  min (l.fileSize - index * l.chunkSize) l.chunkSize

theorem chunkSize_pos (l : ChunkLayout) : 0 < l.chunkSize :=
  lt_of_lt_of_le (by decide) l.min_le

theorem chunkSize_lt (l : ChunkLayout) : l.chunkSize < 2 ^ 32 :=
  lt_of_le_of_lt l.le_max (by decide)

/-- An index is below the count exactly when its chunk starts inside the file. -/
theorem lt_count_iff (l : ChunkLayout) (i : Nat) : i < l.count ↔ i * l.chunkSize < l.fileSize := by
  rw [l.count_eq, lt_divCeil_iff l.chunkSize_pos]

/-- The chunks reach to the end of the file. -/
theorem fileSize_le (l : ChunkLayout) : l.fileSize ≤ l.count * l.chunkSize :=
  Nat.le_of_not_lt ((l.lt_count_iff l.count).not.1 (Nat.lt_irrefl _))

theorem count_lt (l : ChunkLayout) : l.count < 2 ^ 64 := by
  by_contra hge
  have hlt := (l.lt_count_iff (2 ^ 64 - 1)).1 (by omega)
  have hsize := l.fileSize_lt
  have := Nat.le_mul_of_pos_right (2 ^ 64 - 1) l.chunkSize_pos
  omega

theorem start_lt (l : ChunkLayout) {i : Nat} (h : i < l.count) : l.start i < l.fileSize :=
  (l.lt_count_iff i).1 h

theorem len_pos (l : ChunkLayout) {i : Nat} (h : i < l.count) : 0 < l.len i := by
  have hs := (l.lt_count_iff i).1 h
  have hpos := l.chunkSize_pos
  unfold len
  omega

theorem len_le (l : ChunkLayout) (i : Nat) : l.len i ≤ l.chunkSize :=
  Nat.min_le_right _ _

theorem start_add_len_le (l : ChunkLayout) {i : Nat} (h : i < l.count) :
    l.start i + l.len i ≤ l.fileSize := by
  have hs := (l.lt_count_iff i).1 h
  unfold start len
  omega

/-- **`range` never wraps.** In range it returns the chunk's start and length as they are. -/
theorem range_eq (l : ChunkLayout) {i : Nat} (h : i < l.count) :
    l.range i = .ok (l.start i, l.len i) := by
  have hs := (l.lt_count_iff i).1 h
  have hoff : i * l.chunkSize % 2 ^ 64 = i * l.chunkSize :=
    Nat.mod_eq_of_lt (lt_trans hs l.fileSize_lt)
  have hlen : l.len i % 2 ^ 32 = l.len i :=
    Nat.mod_eq_of_lt (lt_of_le_of_lt (l.len_le i) l.chunkSize_lt)
  unfold range
  rw [if_neg (Nat.not_le.2 h)]
  simp only [hoff]
  rw [show min (l.fileSize - i * l.chunkSize) l.chunkSize = l.len i from rfl, hlen]
  rfl

theorem range_ok_iff (l : ChunkLayout) (i : Nat) (r : Nat × Nat) :
    l.range i = .ok r ↔ i < l.count ∧ r = (l.start i, l.len i) := by
  constructor
  · intro h
    by_cases hi : i < l.count
    · rw [l.range_eq hi, Except.ok.injEq] at h
      exact ⟨hi, h.symm⟩
    · unfold range at h
      rw [if_pos (Nat.not_lt.1 hi)] at h
      cases h
  · rintro ⟨hi, rfl⟩
    exact l.range_eq hi

theorem indexOf_ok_iff (l : ChunkLayout) (offset i : Nat) :
    l.indexOf offset = .ok i ↔ offset < l.fileSize ∧ i = offset / l.chunkSize := by
  unfold indexOf
  by_cases h : l.fileSize ≤ offset
  · rw [if_pos h]
    constructor
    · nofun
    · intro hlt
      omega
  · rw [if_neg h, Except.ok.injEq]
    constructor
    · intro hi
      exact ⟨Nat.not_le.1 h, hi.symm⟩
    · intro hi
      exact hi.2.symm

/-- The chunk an offset lies in exists. -/
theorem indexOf_lt_count (l : ChunkLayout) {offset i : Nat} (h : l.indexOf offset = .ok i) :
    i < l.count := by
  obtain ⟨hlt, rfl⟩ := (l.indexOf_ok_iff offset i).1 h
  rw [lt_count_iff]
  exact lt_of_le_of_lt (Nat.div_mul_le_self _ _) hlt

theorem indexOf_start (l : ChunkLayout) {i : Nat} (h : i < l.count) :
    l.indexOf (l.start i) = .ok i := by
  rw [indexOf_ok_iff]
  exact ⟨l.start_lt h, (Nat.mul_div_cancel i l.chunkSize_pos).symm⟩

/-- Chunks of different indices do not overlap. -/
theorem disjoint (l : ChunkLayout) {i j : Nat} (h : i < j) : l.start i + l.len i ≤ l.start j := by
  have hmul : (i + 1) * l.chunkSize ≤ j * l.chunkSize := Nat.mul_le_mul_right _ h
  have hlen := l.len_le i
  rw [Nat.succ_mul] at hmul
  unfold start
  omega

/-- Every byte of the file lies in the chunk its offset divides to. -/
theorem mem_chunk (l : ChunkLayout) {pos : Nat} (h : pos < l.fileSize) :
    l.start (pos / l.chunkSize) ≤ pos ∧
      pos < l.start (pos / l.chunkSize) + l.len (pos / l.chunkSize) := by
  have hdiv := Nat.div_add_mod pos l.chunkSize
  have hmod := Nat.mod_lt pos l.chunkSize_pos
  rw [Nat.mul_comm] at hdiv
  unfold start len
  omega

theorem sum_len_range (l : ChunkLayout) (k : Nat) :
    ((List.range k).map l.len).sum = min (k * l.chunkSize) l.fileSize := by
  induction k with
  | zero => simp
  | succ k ih =>
      rw [List.range_succ, List.map_append, List.sum_append, ih, Nat.succ_mul]
      simp only [List.map_cons, List.map_nil, List.sum_cons, List.sum_nil, len]
      omega

/-- **The chunks make up the file.** -/
theorem sum_len (l : ChunkLayout) : ((List.range l.count).map l.len).sum = l.fileSize := by
  rw [sum_len_range, Nat.min_eq_right l.fileSize_le]

/-- Whether there is a layout depends on the chunk size only. -/
theorem exists_new_of_new {fileSize : UInt64} {chunkSize : UInt32} {l : ChunkLayout}
    (h : new fileSize chunkSize = .ok l) (other : UInt64) : ∃ l', new other chunkSize = .ok l' := by
  unfold new at h ⊢
  split at h
  · next hband =>
      split at h
      · next hpow =>
          rw [dif_pos hband, dif_pos hpow]
          exact ⟨_, rfl⟩
      · cases h
  · cases h

theorem new_ok {fileSize : UInt64} {chunkSize : UInt32} {l : ChunkLayout}
    (h : new fileSize chunkSize = .ok l) :
    l.fileSize = fileSize.toNat ∧ l.chunkSize = chunkSize.toNat := by
  unfold new at h
  split at h
  · split at h
    · rw [Except.ok.injEq] at h
      exact h ▸ ⟨rfl, rfl⟩
    · cases h
  · cases h

end ChunkLayout

end AetherLink
