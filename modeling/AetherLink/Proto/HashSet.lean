import AetherLink.Proto.Chunk

set_option autoImplicit false

/-! # Chunk hashes that arrive out of order

With several streams the chunks of a file do not come in index order. `ChunkHashSet` has one slot for
every chunk and counts the slots it fills, so that whether the root can be computed is known without a
look at the slots. -/

namespace AetherLink

/-- Accumulates chunk hashes; the root is only computable once every slot is filled. -/
structure ChunkHashSet where
  hashes : List (Option Hash)
  filled : UInt64
  deriving DecidableEq

namespace ChunkHashSet

def new (count : UInt64) : ChunkHashSet :=
  { hashes := List.replicate count.toNat none, filled := 0 }

/-- Records a chunk hash: the set it leaves, and the answer. Recording a hash again does nothing; a
    different hash in its place is a conflict. -/
def insert (self : ChunkHashSet) (index : UInt64) (hash : Hash) :
    ChunkHashSet × Except Proto.Error Unit :=
  match self.hashes[index.toNat]? with
  | none => (self, .error (.chunkOutOfRange index.toNat self.hashes.length))
  | some (some existing) =>
      if existing = hash then (self, .ok ())
      else (self, .error (.chunkHashConflict index.toNat))
  | some none =>
      ({ hashes := self.hashes.set index.toNat (some hash), filled := self.filled + 1 }, .ok ())

def isComplete (self : ChunkHashSet) : Bool :=
  self.filled == UInt64.ofNat self.hashes.length

/-- Root over all chunk hashes, or `some none` while any are still missing. `none` is the panic of an
    `unwrap` on an empty slot. -/
def root (blake3 : Blake3) (self : ChunkHashSet) : Option (Option Hash) :=
  if !self.isComplete then some none
  else (self.hashes.mapM id).map fun ordered => some (rootFromChunkHashes blake3 ordered)

/-- The set after the calls in order, whatever they answer. -/
def insertAll (self : ChunkHashSet) (calls : List (UInt64 × Hash)) : ChunkHashSet :=
  calls.foldl (fun set call => (set.insert call.1 call.2).1) self

/-! ## What one call does -/

variable {self : ChunkHashSet} {index : UInt64} {hash : Hash}

theorem insert_outside (h : self.hashes.length ≤ index.toNat) : (self.insert index hash).1 = self := by
  rw [insert, List.getElem?_eq_none h]

/-- A slot that is filled stays as it is. -/
theorem insert_recorded {existing : Hash} (h : self.hashes[index.toNat]? = some (some existing)) :
    (self.insert index hash).1 = self := by
  rw [insert, h]
  simp only
  split <;> rfl

theorem insert_fresh (h : self.hashes[index.toNat]? = some none) :
    self.insert index hash =
      ({ hashes := self.hashes.set index.toNat (some hash), filled := self.filled + 1 }, .ok ()) := by
  rw [insert, h]

/-- When a call is refused. -/
theorem insert_error_iff {e : Proto.Error} :
    (self.insert index hash).2 = .error e ↔
      self.hashes.length ≤ index.toNat ∧ e = .chunkOutOfRange index.toNat self.hashes.length ∨
      (∃ existing, self.hashes[index.toNat]? = some (some existing) ∧ existing ≠ hash) ∧
        e = .chunkHashConflict index.toNat := by
  rw [insert]
  cases hslot : self.hashes[index.toNat]? with
  | none =>
      have hlen := List.getElem?_eq_none_iff.1 hslot
      simp [hlen, eq_comm]
  | some slot =>
      have hlt : ¬ self.hashes.length ≤ index.toNat :=
        Nat.not_le.2 (List.getElem?_eq_some_iff.1 hslot).1
      cases slot with
      | none => simp [hlt]
      | some existing =>
          by_cases hsame : existing = hash
          · simp [hsame, hlt]
          · simp only [hsame, if_false, hlt, false_and, false_or, Option.some.injEq,
              exists_eq_left', ne_eq, not_false_eq_true, true_and, Except.error.injEq]
            exact eq_comm

/-- **A failing call leaves the set unchanged.** -/
theorem insert_of_error {e : Proto.Error} (h : (self.insert index hash).2 = .error e) :
    (self.insert index hash).1 = self := by
  rcases insert_error_iff.1 h with ⟨hout, -⟩ | ⟨⟨existing, hslot, -⟩, -⟩
  · exact insert_outside hout
  · exact insert_recorded hslot

end ChunkHashSet

end AetherLink
