import AetherLink.Core.Recv.Offer
import AetherLink.Spec.TableHash

set_option autoImplicit false

/-! # Chunks that hash to a root

A chunk is hashed as it is and a root is hashed behind a domain prefix, so the two are kept apart only
on chunks that do not begin with what a root is hashed of. The bytes of a chunk are the sender's to
choose: a chunk that is the prefix, a number, and that many digests (`RootShaped`) has the hash of a
root, and under a hash without collisions no other chunk has. -/

namespace AetherLink

open Bytes

/-! ## Chunks -/

/-- The bytes of some chunk of some file. -/
def IsChunk (b : List UInt8) : Prop :=
  ∃ (l : ChunkLayout) (content : List UInt8) (i offset len : Nat),
    content.length = l.fileSize ∧ l.range i = .ok (offset, len) ∧ slice content offset len = b

/-- The file that is one chunk of `n` bytes. -/
def ChunkLayout.single (n : Nat) (hpos : 0 < n) (hle : n ≤ MAX_CHUNK_SIZE) : ChunkLayout where
  fileSize := n
  chunkSize := MAX_CHUNK_SIZE
  count := 1
  fileSize_lt := lt_of_le_of_lt hle (by decide)
  min_le := by decide
  le_max := Nat.le_refl _
  powerOfTwo := by decide
  count_eq := by
    unfold divCeil
    rw [Nat.div_eq_of_lt_le]
    · omega
    · omega

/-- Any bytes are a chunk, up to the largest chunk size. -/
theorem isChunk_iff {b : List UInt8} : IsChunk b ↔ 0 < b.length ∧ b.length ≤ MAX_CHUNK_SIZE := by
  constructor
  · rintro ⟨l, content, i, offset, len, hlen, hrange, rfl⟩
    obtain ⟨hi, heq⟩ := (l.range_ok_iff i (offset, len)).1 hrange
    obtain ⟨rfl, rfl⟩ := Prod.mk.inj heq
    rw [length_slice_of_le (hlen ▸ l.start_add_len_le hi)]
    exact ⟨l.len_pos hi, (l.len_le i).trans l.le_max⟩
  · rintro ⟨hpos, hle⟩
    have hone : 0 < (ChunkLayout.single b.length hpos hle).count := Nat.one_pos
    refine ⟨.single b.length hpos hle, b, 0, _, _, rfl, ChunkLayout.range_eq _ hone, ?_⟩
    have hstart : (ChunkLayout.single b.length hpos hle).start 0 = 0 := Nat.zero_mul _
    have hlen : (ChunkLayout.single b.length hpos hle).len 0 = b.length := by
      unfold ChunkLayout.len ChunkLayout.single
      simp only
      omega
    rw [hstart, hlen, slice, List.drop_zero, List.take_length]

/-! ## Roots -/

/-- The prefix, a number in eight bytes, and that many digests: what a root is the hash of. -/
def RootShaped (b : List UInt8) : Prop :=
  b.take ROOT_DOMAIN.length = ROOT_DOMAIN ∧
    b.length = ROOT_DOMAIN.length + 8 + 32 * leNat (slice b ROOT_DOMAIN.length 8)

instance (b : List UInt8) : Decidable (RootShaped b) :=
  inferInstanceAs (Decidable (_ ∧ _))

/-- Bytes that are cut into digests are these digests put together. -/
theorem concatHashes_cutHashes {n : Nat} {bs : List UInt8} (h : bs.length = 32 * n) :
    concatHashes (cutHashes n bs) = bs := by
  induction n generalizing bs with
  | zero =>
      rw [List.eq_nil_of_length_eq_zero h]
      rfl
  | succ n ih =>
      have hdrop : (bs.drop 32).length = 32 * n := by
        rw [List.length_drop]
        omega
      have hhead : (hashOfBytes bs).1 = bs.take 32 := by
        show bs.take 32 ++ List.replicate (32 - bs.length) 0 = bs.take 32
        rw [show 32 - bs.length = 0 by omega, List.replicate_zero, List.append_nil]
      rw [cutHashes, concatHashes_cons, hhead, ih hdrop, List.take_append_drop]

/-- The digests behind the prefix and the number. -/
theorem exists_rootPreimage {b : List UInt8} (h : RootShaped b) : ∃ hs, rootPreimage hs = b := by
  obtain ⟨hdomain, hlen⟩ := h
  have hnumber : (slice b ROOT_DOMAIN.length 8).length = 8 := length_slice_of_le (by omega)
  have hdigests : (b.drop (ROOT_DOMAIN.length + 8)).length
      = 32 * leNat (slice b ROOT_DOMAIN.length 8) := by
    rw [List.length_drop]
    omega
  refine ⟨cutHashes (leNat (slice b ROOT_DOMAIN.length 8)) (b.drop (ROOT_DOMAIN.length + 8)), ?_⟩
  have hback := leBytes_leNat (slice b ROOT_DOMAIN.length 8)
  rw [hnumber] at hback
  calc rootPreimage _
      = ROOT_DOMAIN ++ slice b ROOT_DOMAIN.length 8 ++ b.drop (ROOT_DOMAIN.length + 8) := by
        rw [rootPreimage, length_cutHashes, hback, concatHashes_cutHashes hdigests]
    _ = b.take ROOT_DOMAIN.length ++ slice b ROOT_DOMAIN.length 8
          ++ b.drop (ROOT_DOMAIN.length + 8) := by rw [hdomain]
    _ = b := by rw [slice, ← List.take_add, List.take_append_drop]

/-- A list of digests that fits in a chunk is so short that its length is written as it is. -/
theorem rootShaped_rootPreimage {hs : List Hash} (h : (rootPreimage hs).length ≤ MAX_CHUNK_SIZE) :
    RootShaped (rootPreimage hs) := by
  have hlen : (rootPreimage hs).length = ROOT_DOMAIN.length + 8 + 32 * hs.length := by
    rw [rootPreimage, List.length_append, List.length_append, length_leBytes, length_concatHashes]
  have hmax : MAX_CHUNK_SIZE < 256 ^ 8 := by decide
  have hnumber : slice (rootPreimage hs) ROOT_DOMAIN.length 8 = leBytes 8 hs.length := by
    rw [slice, rootPreimage, List.append_assoc, List.drop_left' rfl,
      List.take_left' (length_leBytes 8 _)]
  refine ⟨?_, ?_⟩
  · rw [rootPreimage, List.append_assoc, List.take_left' rfl]
  · rw [hnumber, leNat_leBytes (by omega), hlen]

/-- **When a chunk is told from every root.** Under a hash without collisions, the hash of a chunk is
    the root of no list of digests exactly when the chunk is not itself the prefix, a number and that
    many digests. -/
theorem chunk_hash_is_no_root_iff {blake3 : Blake3} {T : Set Hash}
    (hcf : CollisionFreeOn blake3 T) {b : List UInt8} (hb : IsChunk b)
    (hT : hashChunk blake3 b ∈ T) :
    (∀ hs, hashChunk blake3 b ≠ rootFromChunkHashes blake3 hs) ↔ ¬ RootShaped b := by
  constructor
  · intro hapart hshaped
    obtain ⟨hs, rfl⟩ := exists_rootPreimage hshaped
    exact hapart hs rfl
  · intro hshaped hs hsame
    have hpre : b = rootPreimage hs := hcf _ _ hsame hT
    rw [hpre] at hb hshaped
    exact hshaped (rootShaped_rootPreimage (isChunk_iff.1 hb).2)

/-- The chunk of the one byte `A` is told from every root, and the 31 bytes that the root of no
    digests is the hash of are not. -/
theorem chunk_hash_is_no_root_iff_oneByte :
    (∀ hs, hashChunk shortFileHash [0x41] ≠ rootFromChunkHashes shortFileHash hs) ∧
      ∃ hs, hashChunk shortFileHash (rootPreimage []) = rootFromChunkHashes shortFileHash hs := by
  constructor
  · have hiff := chunk_hash_is_no_root_iff collisionFreeOn_shortFileHash
      (isChunk_iff.2 (by decide) : IsChunk [0x41])
      (show digestA ∈ shortFileDigests.map Prod.snd by decide)
    exact hiff.2 (by decide)
  · have hiff := chunk_hash_is_no_root_iff collisionFreeOn_shortFileHash
      (isChunk_iff.2 (by decide) : IsChunk (rootPreimage []))
      (show rootEmpty ∈ shortFileDigests.map Prod.snd by decide)
    have hsome := mt hiff.1 (not_not.2 (rootShaped_rootPreimage (by decide)))
    push Not at hsome
    exact hsome

/-- The 31 bytes that the root of an empty file is the hash of are a chunk too. -/
theorem chunk_hash_mistaken_for_a_root :
    ¬ ∀ (blake3 : Blake3) (T : Set Hash), CollisionFreeOn blake3 T → ∀ b, IsChunk b →
      hashChunk blake3 b ∈ T → ∀ hs, hashChunk blake3 b ≠ rootFromChunkHashes blake3 hs := by
  intro hall
  refine hall shortFileHash _ collisionFreeOn_shortFileHash (rootPreimage [])
    (isChunk_iff.2 (by decide)) ?_ [] rfl
  exact show rootEmpty ∈ shortFileDigests.map Prod.snd by decide

end AetherLink
