import AetherLink.Proto.Chunk
import Mathlib.Data.List.Nodup

set_option autoImplicit false

/-! # Hashes given by a table

BLAKE3 enters the development as a parameter. To run the model on concrete files it is instantiated
by a hash that has the right digests on the listed inputs and one fixed digest, in no entry of the
list, on all others; on the listed digests such a hash is collision-free. -/

namespace AetherLink

open Bytes

/-- The hash with the given digests, and `fallback` everywhere else. -/
def tableHash (table : List (List UInt8 × Hash)) (fallback : Hash) : Blake3 :=
  fun x => (table.lookup x).getD fallback

/-- The digests a table lists. -/
def listedDigests (table : List (List UInt8 × Hash)) : Set Hash :=
  { h | h ∈ table.map Prod.snd }

theorem mem_of_lookup {table : List (List UInt8 × Hash)} {x : List UInt8} {h : Hash}
    (hx : table.lookup x = some h) : (x, h) ∈ table := by
  induction table with
  | nil => simp at hx
  | cons e table ih =>
      obtain ⟨y, d⟩ := e
      rw [List.lookup_cons] at hx
      split at hx
      · next hxy =>
          rw [beq_iff_eq] at hxy
          simp only [Option.some.injEq] at hx
          simp [hxy, hx]
      · exact List.mem_cons_of_mem _ (ih hx)

/-- A table without repeated digests is collision-free on the digests it lists. -/
theorem collisionFreeOn_tableHash {table : List (List UInt8 × Hash)} {fallback : Hash}
    (hnodup : (table.map Prod.snd).Nodup) (hfallback : fallback ∉ table.map Prod.snd) :
    CollisionFreeOn (tableHash table fallback) (listedDigests table) := by
  have hlisted : ∀ x, tableHash table fallback x ∈ listedDigests table →
      (x, tableHash table fallback x) ∈ table := by
    intro x hx
    unfold tableHash at hx ⊢
    cases hl : table.lookup x with
    | none =>
        rw [hl] at hx
        exact absurd hx hfallback
    | some h => exact mem_of_lookup hl
  intro x y hxy hx
  have hmx := hlisted x hx
  have hmy := hlisted y (hxy ▸ hx)
  rw [← hxy] at hmy
  exact congrArg Prod.fst (List.inj_on_of_nodup_map hnodup hmx hmy rfl)

/-! ## Some short files -/

/-- BLAKE3 of the byte `A`. -/
def digestA : Hash :=
  ⟨[0x32, 0x68, 0x4b, 0xfa, 0x28, 0xc0, 0xc8, 0x4d, 0x6f, 0x21, 0x05, 0x11, 0xaa, 0xce, 0x0e,
    0xfc, 0x51, 0x71, 0xc7, 0x88, 0x91, 0x48, 0xba, 0x89, 0x20, 0x8d, 0x5a, 0xa2, 0x97, 0x05,
    0xfa, 0x98], rfl⟩

/-- BLAKE3 of the byte `B`. -/
def digestB : Hash :=
  ⟨[0x9f, 0x95, 0x24, 0xca, 0x18, 0xc0, 0xcc, 0x03, 0xae, 0xf1, 0xa0, 0xb8, 0x4f, 0xae, 0xd9,
    0x37, 0x5e, 0x5d, 0x19, 0x57, 0x5e, 0x93, 0x28, 0xe6, 0x5f, 0xea, 0x72, 0x99, 0x1f, 0x0f,
    0x58, 0xcf], rfl⟩

/-- BLAKE3 of one zero byte. -/
def digestZero : Hash :=
  ⟨[0x2d, 0x3a, 0xde, 0xdf, 0xf1, 0x1b, 0x61, 0xf1, 0x4c, 0x88, 0x6e, 0x35, 0xaf, 0xa0, 0x36,
    0x73, 0x6d, 0xcd, 0x87, 0xa7, 0x4d, 0x27, 0xb5, 0xc1, 0x51, 0x02, 0x25, 0xd0, 0xf5, 0x92,
    0xe2, 0x13], rfl⟩

/-- The root of a file without chunks. -/
def rootEmpty : Hash :=
  ⟨[0xb7, 0x7c, 0xd4, 0xd5, 0x4d, 0x9f, 0xfd, 0x84, 0x44, 0x64, 0xf1, 0xd4, 0x31, 0x13, 0x34,
    0x34, 0x4e, 0x65, 0xb3, 0x0f, 0xa0, 0x8d, 0xc4, 0xab, 0x9c, 0x06, 0x81, 0x6e, 0xd9, 0xd5,
    0xdf, 0x84], rfl⟩

/-- The root of the file with the one byte `A`. -/
def rootA : Hash :=
  ⟨[0x2a, 0x95, 0xdf, 0x38, 0xf2, 0xf6, 0xda, 0x60, 0x09, 0x92, 0x00, 0x64, 0xed, 0xae, 0x7d,
    0xb3, 0x68, 0x00, 0x20, 0x69, 0xe5, 0xee, 0xec, 0xc2, 0x78, 0x90, 0xb2, 0xe6, 0x81, 0x91,
    0xc5, 0xc0], rfl⟩

/-- The root of the file with the one byte `B`. -/
def rootB : Hash :=
  ⟨[0xe4, 0x92, 0x27, 0xff, 0x3e, 0x7a, 0xca, 0x9d, 0xd7, 0xf9, 0xb0, 0xe1, 0x55, 0x09, 0x29,
    0x6f, 0x90, 0x8e, 0x6e, 0x1e, 0x16, 0x0b, 0xd9, 0x90, 0xdb, 0x3a, 0x94, 0x8e, 0x76, 0x90,
    0xb0, 0x54], rfl⟩

/-- The root of the file with one zero byte. -/
def rootZero : Hash :=
  ⟨[0x8c, 0xf0, 0x5d, 0xdb, 0xc7, 0xdc, 0x12, 0x24, 0xf8, 0xd7, 0xcd, 0xda, 0x60, 0x8a, 0xc4,
    0x01, 0xcf, 0x7e, 0x21, 0x09, 0x09, 0x06, 0xac, 0x26, 0xd2, 0x48, 0x29, 0xc3, 0x72, 0x47,
    0xc6, 0x8a], rfl⟩

/-- BLAKE3 of 65536 zero bytes. -/
def digestZeroChunk : Hash :=
  ⟨[0x3b, 0xde, 0xaf, 0x8f, 0x8e, 0x98, 0x78, 0x0b, 0x31, 0x81, 0x06, 0xaa, 0xfd, 0xc3, 0xca,
    0x25, 0x7f, 0x73, 0xdf, 0x12, 0x3d, 0x97, 0xb6, 0x91, 0x12, 0xb2, 0x60, 0x44, 0xc9, 0x1a,
    0x7d, 0x56], rfl⟩

/-- The root of the file of 65536 zero bytes and the byte `A`. -/
def rootTwoChunks : Hash :=
  ⟨[0x6b, 0xd4, 0x41, 0x27, 0x9a, 0x75, 0x56, 0x92, 0x52, 0xac, 0x04, 0x30, 0x6e, 0xe8, 0x8b,
    0x12, 0x6e, 0x09, 0x87, 0x1c, 0x01, 0x8a, 0xe4, 0xb8, 0xfa, 0xc3, 0xd5, 0x98, 0xcc, 0x6e,
    0xe3, 0x12], rfl⟩

/-- BLAKE3 where the short files need it. -/
def shortFileDigests : List (List UInt8 × Hash) :=
  [([0x41], digestA), ([0x42], digestB), ([0x00], digestZero),
    (rootPreimage [], rootEmpty), (rootPreimage [digestA], rootA),
    (rootPreimage [digestB], rootB), (rootPreimage [digestZero], rootZero),
    (rootPreimage [digestZeroChunk, digestA], rootTwoChunks)]

/-- A hash that agrees with BLAKE3 on the chunks and roots of the short files. -/
def shortFileHash : Blake3 :=
  tableHash shortFileDigests ⟨List.replicate 32 0, rfl⟩

theorem collisionFreeOn_shortFileHash :
    CollisionFreeOn shortFileHash (listedDigests shortFileDigests) :=
  collisionFreeOn_tableHash (by decide) (by decide)

end AetherLink
