import AetherLink.Proofs.Release
import AetherLink.Proofs.Sender

set_option autoImplicit false

/-! # Hashing a file without keeping it in memory

`chunk_hashes` goes through the file once and drops the pages behind it. The digests are those of the
plain loop, no page is dropped that is still to be read, and what has been read and not dropped never
comes to more than a batch and a chunk (`HashPass.Inv`). -/

namespace AetherLink

open Bytes

/-! ## What has been done to the mapping -/

/-- The bytes an operation hashes. -/
def PageOp.hashed : PageOp → Nat
  | .hash _ len => len
  | .advise _ _ => 0

/-- The bytes an operation drops. -/
def PageOp.dropped : PageOp → Nat
  | .hash _ _ => 0
  | .advise _ len => len

def hashedBytes (ops : List PageOp) : Nat :=
  (ops.map PageOp.hashed).sum

def droppedBytes (ops : List PageOp) : Nat :=
  (ops.map PageOp.dropped).sum

@[simp] theorem hashedBytes_concat (ops : List PageOp) (op : PageOp) :
    hashedBytes (ops ++ [op]) = hashedBytes ops + op.hashed := by
  simp [hashedBytes]

@[simp] theorem droppedBytes_concat (ops : List PageOp) (op : PageOp) :
    droppedBytes (ops ++ [op]) = droppedBytes ops + op.dropped := by
  simp [droppedBytes]

/-- What comes later is further on in the file, but for the pages that are dropped after they have been
    hashed. -/
def PageOp.Before : PageOp → PageOp → Prop
  | .hash offset len, .hash offset' _ => offset + len ≤ offset'
  | .hash _ _, .advise _ _ => True
  | .advise offset len, .hash offset' _ => offset + len ≤ offset'
  | .advise offset len, .advise offset' _ => offset + len ≤ offset'

/-- Whole pages are dropped, and none before it has been hashed. -/
def DropsBehind (ps : Nat) (ops : List PageOp) : Prop :=
  ∀ pre offset len, pre ++ [.advise offset len] <+: ops →
    ps ∣ offset ∧ ps ∣ len ∧ 0 < len ∧ offset + len ≤ hashedBytes pre

/-- What has been hashed and not dropped is below a limit, at every point. -/
def StaysBelow (limit : Nat) (ops : List PageOp) : Prop :=
  ∀ pre, pre <+: ops → hashedBytes pre < droppedBytes pre + limit

section Ops

variable {ps limit offset len : Nat} {ops : List PageOp}

theorem DropsBehind.nil : DropsBehind ps [] := by
  intro pre offset len h
  exact absurd (List.prefix_nil.1 h) (by simp)

theorem DropsBehind.hash (h : DropsBehind ps ops) : DropsBehind ps (ops ++ [.hash offset len]) := by
  intro pre offset' len' hpre
  rcases List.prefix_concat_iff.1 hpre with heq | hbefore
  · exact absurd (List.append_inj' heq rfl).2 (by simp)
  · exact h pre offset' len' hbefore

theorem DropsBehind.advise (h : DropsBehind ps ops) (hoffset : ps ∣ offset) (hlen : ps ∣ len)
    (hpos : 0 < len) (hle : offset + len ≤ hashedBytes ops) :
    DropsBehind ps (ops ++ [.advise offset len]) := by
  intro pre offset' len' hpre
  rcases List.prefix_concat_iff.1 hpre with heq | hbefore
  · obtain ⟨rfl, hop⟩ := List.append_inj' heq rfl
    cases hop
    exact ⟨hoffset, hlen, hpos, hle⟩
  · exact h pre offset' len' hbefore

theorem StaysBelow.concat {op : PageOp} (h : StaysBelow limit ops)
    (hop : hashedBytes ops + op.hashed < droppedBytes ops + op.dropped + limit) :
    StaysBelow limit (ops ++ [op]) := by
  intro pre hpre
  rcases List.prefix_concat_iff.1 hpre with rfl | hbefore
  · simpa using hop
  · exact h pre hbefore

end Ops

/-! ## The loop -/

/-- The file up to and without this chunk. -/
def ChunkLayout.upTo (l : ChunkLayout) (k : Nat) : Nat :=
  min (k * l.chunkSize) l.fileSize

namespace ChunkLayout

variable {l : ChunkLayout} {k : Nat}

theorem upTo_of_lt (h : k < l.count) : l.upTo k = l.start k :=
  Nat.min_eq_left (Nat.le_of_lt (l.start_lt h))

theorem upTo_succ (h : k < l.count) : l.upTo (k + 1) = l.start k + l.len k := by
  have hstart := l.start_lt h
  unfold upTo start len at *
  rw [Nat.succ_mul]
  omega

theorem upTo_le (l : ChunkLayout) (k : Nat) : l.upTo k ≤ l.fileSize :=
  Nat.min_le_right _ _

/-- It ends with a whole chunk, or with the file. -/
theorem dvd_upTo {d : Nat} (h : d ∣ l.chunkSize) (k : Nat) : d ∣ l.upTo k ∨ l.upTo k = l.fileSize := by
  rcases Nat.le_total (k * l.chunkSize) l.fileSize with hin | hout
  · left
    rw [upTo, Nat.min_eq_left hin]
    exact Dvd.dvd.mul_left h k
  · exact .inr (Nat.min_eq_right hout)

end ChunkLayout

/-- A page boundary stays below the last one before what it is below. -/
theorem le_div_mul_of_dvd {a b d : Nat} (hdvd : d ∣ a) (h : a ≤ b) : a ≤ b / d * d :=
  calc a = a / d * d := (Nat.div_mul_cancel hdvd).symm
    _ ≤ b / d * d := Nat.mul_le_mul_right _ (Nat.div_le_div_right h)

/-- A range that begins with a page is dropped to its last whole page. -/
theorem MappedFile.releaseRange_of_dvd (src : MappedFile) {start stop : Nat}
    (hdvd : pageSize src.raw ∣ start) (hstart : start ≤ src.map.length)
    (hstop : stop ≤ src.map.length) :
    src.releaseRange start stop
      = if stop / pageSize src.raw * pageSize src.raw ≤ start then none
        else some (start, stop / pageSize src.raw * pageSize src.raw - start) := by
  have hps := pageSize_pos src.raw
  have hlt := src.length_lt
  have hlast := Nat.div_mul_le_self stop (pageSize src.raw)
  have hceil : divCeil start (pageSize src.raw) * pageSize src.raw = start := by
    have hle := le_divCeil_mul start hps
    have hnext := divCeil_mul_lt start hps
    obtain ⟨q, rfl⟩ := hdvd
    rw [Nat.mul_comm (pageSize src.raw) q] at *
    have hq : divCeil (q * pageSize src.raw) (pageSize src.raw) < q + 1 := by
      refine Nat.lt_of_mul_lt_mul_right (a := pageSize src.raw) ?_
      rw [Nat.succ_mul]
      exact hnext
    have hq' : q ≤ divCeil (q * pageSize src.raw) (pageSize src.raw) :=
      Nat.le_of_mul_le_mul_right hle hps
    rw [Nat.le_antisymm (Nat.le_of_lt_succ hq) hq']
  unfold releaseRange
  simp only
  rw [hceil, Nat.mod_eq_of_lt (by omega), Nat.mod_eq_of_lt (by omega)]

/-- The pass after `k` chunks. -/
structure HashPass.Inv (blake3 : Blake3) (src : MappedFile) (releasing : Bool) (k : Nat)
    (p : HashPass) : Prop where
  out_eq : p.out = (List.range k).map fun i =>
    hashChunk blake3 (slice src.map (src.layout.start i) (src.layout.len i))
  hashed : hashedBytes p.ops = src.layout.upTo k
  dropped : droppedBytes p.ops = p.releasedTo / pageSize src.raw * pageSize src.raw
  released_le : p.releasedTo ≤ src.layout.upTo k
  aligned : pageSize src.raw ∣ p.releasedTo ∨ p.releasedTo = src.layout.fileSize
  hash_le : ∀ offset len, PageOp.hash offset len ∈ p.ops → offset + len ≤ src.layout.upTo k
  advise_le : ∀ offset len, PageOp.advise offset len ∈ p.ops → offset + len ≤ p.releasedTo
  inOrder : p.ops.Pairwise PageOp.Before
  behind : DropsBehind (pageSize src.raw) p.ops
  pending : releasing = true → src.layout.upTo k - p.releasedTo < src.batch
  below : releasing = true → StaysBelow (src.batch + src.layout.chunkSize) p.ops
  still : releasing = false → ∀ offset len, PageOp.advise offset len ∉ p.ops

section Loop

variable {blake3 : Blake3} {src : MappedFile} {releasing : Bool} {k : Nat} {p : HashPass}

theorem MappedFile.batch_pos (src : MappedFile) : 0 < src.batch :=
  Nat.lt_of_lt_of_le src.layout.chunkSize_pos (Nat.le_max_right _ _)

theorem HashPass.inv_init (blake3 : Blake3) (src : MappedFile) (releasing : Bool) :
    HashPass.Inv blake3 src releasing 0 { out := [], releasedTo := 0, ops := [] } where
  out_eq := rfl
  hashed := by simp [hashedBytes, ChunkLayout.upTo]
  dropped := by simp [droppedBytes]
  released_le := Nat.zero_le _
  aligned := .inl (Nat.dvd_zero _)
  hash_le := fun _ _ h => absurd h List.not_mem_nil
  advise_le := fun _ _ h => absurd h List.not_mem_nil
  inOrder := .nil
  behind := .nil
  pending := fun _ => by simpa [ChunkLayout.upTo] using src.batch_pos
  below := fun _ pre hpre => by
    obtain rfl := List.prefix_nil.1 hpre
    have hpos := src.batch_pos
    simp [hashedBytes, droppedBytes]
    omega
  still := fun _ _ _ h => absurd h List.not_mem_nil

/-- With the next chunk hashed, and nothing dropped yet. -/
theorem HashPass.Inv.hashes (h : p.Inv blake3 src releasing k) (hk : k < src.layout.count) :
    hashedBytes (p.ops ++ [PageOp.hash (src.layout.start k) (src.layout.len k)])
        = src.layout.upTo (k + 1) ∧
      droppedBytes (p.ops ++ [PageOp.hash (src.layout.start k) (src.layout.len k)]) = p.releasedTo ∧
      pageSize src.raw ∣ p.releasedTo ∧
      (p.ops ++ [PageOp.hash (src.layout.start k) (src.layout.len k)]).Pairwise PageOp.Before ∧
      (releasing = true → StaysBelow (src.batch + src.layout.chunkSize)
        (p.ops ++ [PageOp.hash (src.layout.start k) (src.layout.len k)])) := by
  have hnow := ChunkLayout.upTo_of_lt hk
  have hnext := ChunkLayout.upTo_succ hk
  have hstart := src.layout.start_lt hk
  have hlen := src.layout.len_le k
  have hle := h.released_le
  have haligned : pageSize src.raw ∣ p.releasedTo := by
    rcases h.aligned with hdvd | hend
    · exact hdvd
    · omega
  have hdropped : droppedBytes p.ops = p.releasedTo := h.dropped.trans (Nat.div_mul_cancel haligned)
  refine ⟨?_, ?_, haligned, ?_, fun hreleasing => ?_⟩
  · rw [hashedBytes_concat, h.hashed, hnow, hnext]
    rfl
  · rw [droppedBytes_concat, hdropped]
    rfl
  · refine List.pairwise_append.2 ⟨h.inOrder, List.pairwise_singleton _ _, fun op hop next hnext => ?_⟩
    obtain rfl := List.mem_singleton.1 hnext
    cases op with
    | hash offset len =>
        have := h.hash_le offset len hop
        show offset + len ≤ src.layout.start k
        omega
    | advise offset len =>
        have := h.advise_le offset len hop
        show offset + len ≤ src.layout.start k
        omega
  · refine (h.below hreleasing).concat ?_
    have hpending := h.pending hreleasing
    have hhashed := h.hashed
    simp only [PageOp.hashed, PageOp.dropped]
    omega

/-- **One turn of the loop.** -/
theorem HashPass.Inv.turn (h : p.Inv blake3 src releasing k) (hk : k < src.layout.count)
    (hpages : pageSize src.raw ∣ src.layout.chunkSize) :
    ∃ p', src.hashTurn blake3 releasing p k = .ok p' ∧ p'.Inv blake3 src releasing (k + 1) := by
  obtain ⟨hhashed, hdropped, haligned, hinOrder, hbelow⟩ := h.hashes hk
  have hnow := ChunkLayout.upTo_of_lt hk
  have hnext := ChunkLayout.upTo_succ hk
  have hgrows : src.layout.upTo k ≤ src.layout.upTo (k + 1) := by omega
  have hle := h.released_le
  have hfile := src.layout.upTo_le (k + 1)
  have hchunk : src.chunk k = .ok (slice src.map (src.layout.start k) (src.layout.len k)) := by
    rw [SourceFile.chunk, src.layout.range_eq hk]
  have hout : p.out ++ [hashChunk blake3 (slice src.map (src.layout.start k) (src.layout.len k))]
      = (List.range (k + 1)).map fun i =>
        hashChunk blake3 (slice src.map (src.layout.start i) (src.layout.len i)) := by
    rw [h.out_eq, List.range_succ, List.map_append]
    rfl
  have hhash : ∀ offset len,
      PageOp.hash offset len ∈ p.ops ++ [PageOp.hash (src.layout.start k) (src.layout.len k)] →
        offset + len ≤ src.layout.upTo (k + 1) := by
    intro offset len hop
    rcases List.mem_append.1 hop with hold | hnew
    · exact (h.hash_le offset len hold).trans hgrows
    · cases List.mem_singleton.1 hnew
      exact hnext.ge
  have hadvise : ∀ offset len,
      PageOp.advise offset len ∈ p.ops ++ [PageOp.hash (src.layout.start k) (src.layout.len k)] →
        offset + len ≤ p.releasedTo := by
    intro offset len hop
    rcases List.mem_append.1 hop with hold | hnew
    · exact h.advise_le offset len hold
    · cases List.mem_singleton.1 hnew
  unfold MappedFile.hashTurn
  simp only [src.layout.range_eq hk, hchunk]
  split
  · next hdue =>
      obtain ⟨hreleasing, hbatch⟩ := hdue
      have hmap := src.size_eq
      have hps := pageSize_pos src.raw
      have hboundary := hnext ▸ ChunkLayout.dvd_upTo hpages (k + 1)
      have hwhole := Nat.div_mul_le_self (src.layout.start k + src.layout.len k) (pageSize src.raw)
      have hpart := Nat.lt_div_mul_add (a := src.layout.start k + src.layout.len k) hps
      have hbefore : p.releasedTo
          ≤ (src.layout.start k + src.layout.len k) / pageSize src.raw * pageSize src.raw :=
        le_div_mul_of_dvd haligned (by omega)
      rw [src.releaseRange_of_dvd haligned (by omega) (by omega)]
      split
      · next hnone =>
          simp only [Option.toList_none, List.map_nil, List.append_nil]
          refine ⟨_, rfl, hout, hhashed, ?_, hnext.ge, hboundary, hhash, fun offset len hop => ?_,
            hinOrder, h.behind.hash, fun _ => ?_, hbelow,
            fun hstill => absurd (hreleasing.symm.trans hstill) (by decide)⟩
          · rw [hdropped]
            exact Nat.le_antisymm hbefore hnone
          · have := hadvise offset len hop
            show offset + len ≤ src.layout.start k + src.layout.len k
            omega
          · show src.layout.upTo (k + 1) - (src.layout.start k + src.layout.len k) < src.batch
            have := src.batch_pos
            omega
      · next hsome =>
          simp only [Option.toList_some, List.map_cons, List.map_nil]
          refine ⟨_, rfl, hout, ?_, ?_, hnext.ge, hboundary, fun offset len hop => ?_,
            fun offset len hop => ?_, ?_, ?_, fun _ => ?_, fun _ => ?_,
            fun hstill => absurd (hreleasing.symm.trans hstill) (by decide)⟩
          · rw [hashedBytes_concat, hhashed]
            rfl
          · rw [droppedBytes_concat, hdropped]
            simp only [PageOp.dropped]
            omega
          · rcases List.mem_append.1 hop with hold | hnew
            · exact hhash offset len hold
            · cases List.mem_singleton.1 hnew
          · show offset + len ≤ src.layout.start k + src.layout.len k
            rcases List.mem_append.1 hop with hold | hnew
            · have := hadvise offset len hold
              omega
            · cases List.mem_singleton.1 hnew
              omega
          · refine List.pairwise_append.2 ⟨hinOrder, List.pairwise_singleton _ _,
              fun op hop next hnext => ?_⟩
            obtain rfl := List.mem_singleton.1 hnext
            cases op with
            | hash offset len => trivial
            | advise offset len => exact hadvise offset len hop
          · refine h.behind.hash.advise haligned
              (Nat.dvd_sub (Nat.dvd_mul_left _ _) haligned) (by omega) ?_
            rw [hhashed]
            omega
          · show src.layout.upTo (k + 1) - (src.layout.start k + src.layout.len k) < src.batch
            have := src.batch_pos
            omega
          · refine (hbelow hreleasing).concat ?_
            have := src.batch_pos
            have := Nat.le_of_dvd src.layout.chunkSize_pos hpages
            rw [hhashed, hdropped]
            simp only [PageOp.hashed, PageOp.dropped]
            omega
  · next hdue =>
      refine ⟨_, rfl, hout, hhashed, ?_, hle.trans hgrows, .inl haligned, hhash, hadvise, hinOrder,
        h.behind.hash, fun hreleasing => ?_, hbelow, fun hreleasing offset len hop => ?_⟩
      · exact hdropped.trans (Nat.div_mul_cancel haligned).symm
      · show src.layout.upTo (k + 1) - p.releasedTo < src.batch
        rw [hnext]
        exact Nat.lt_of_not_le fun hbatch => hdue ⟨hreleasing, hbatch⟩
      · rcases List.mem_append.1 hop with hold | hnew
        · exact h.still hreleasing offset len hold
        · cases List.mem_singleton.1 hnew

theorem MappedFile.hashPass_inv (blake3 : Blake3) (src : MappedFile) (releasing : Bool)
    (hpages : pageSize src.raw ∣ src.layout.chunkSize) :
    ∀ k ≤ src.layout.count, ∃ p, (List.range k).foldlM (src.hashTurn blake3 releasing)
      { out := [], releasedTo := 0, ops := [] } = .ok p ∧ p.Inv blake3 src releasing k := by
  intro k
  induction k with
  | zero => exact fun _ => ⟨_, rfl, HashPass.inv_init blake3 src releasing⟩
  | succ k ih =>
      intro hk
      obtain ⟨p, hp, hinv⟩ := ih (Nat.le_of_succ_le hk)
      obtain ⟨p', hp', hinv'⟩ := hinv.turn hk hpages
      refine ⟨p', ?_, hinv'⟩
      rw [List.range_succ, List.foldlM_append, hp]
      simp only [List.foldlM_cons, List.foldlM_nil, bind, Except.bind, hp']
      rfl

end Loop

theorem hashedBytes_le_of_prefix {pre ops : List PageOp} (h : pre <+: ops) :
    hashedBytes pre ≤ hashedBytes ops := by
  obtain ⟨more, rfl⟩ := h
  simp [hashedBytes]

/-- **The hashing pass keeps little of the file in memory.** It succeeds with the digests of the plain
    loop, goes through the file once from the front, drops whole pages and only such as have been
    hashed and are not read again, and if it is told to release at no point has it read more than 128
    MiB that it has not dropped. -/
theorem hash_pass_stays_small (blake3 : Blake3) (src : MappedFile) (releasePages : Bool)
    (hpages : pageSize src.raw ∣ src.layout.chunkSize) :
    ∃ p, src.hashPass blake3 releasePages = .ok p ∧ src.chunkHashes blake3 = .ok p.out ∧
      hashedBytes p.ops = src.layout.fileSize ∧ p.ops.Pairwise PageOp.Before ∧
      DropsBehind (pageSize src.raw) p.ops ∧
      (releasePages = false → ∀ offset len, PageOp.advise offset len ∉ p.ops) ∧
      (releasePages = true → ∀ pre, pre <+: p.ops →
        hashedBytes pre ≤ droppedBytes pre + HASH_PASS_RELEASE_THRESHOLD) := by
  obtain ⟨p, hp, hinv⟩ := src.hashPass_inv blake3
    (releasePages && decide (HASH_PASS_RELEASE_THRESHOLD < src.layout.fileSize)) hpages
    src.layout.count (Nat.le_refl _)
  have hall : hashedBytes p.ops = src.layout.fileSize := by
    rw [hinv.hashed, ChunkLayout.upTo, Nat.min_eq_right src.layout.fileSize_le]
  refine ⟨p, hp, ?_, hall, hinv.inOrder, hinv.behind, fun hkeep => ?_, fun hrelease pre hpre => ?_⟩
  · rw [SourceFile.chunkHashes_eq, hinv.out_eq]
  · exact hinv.still (by rw [hkeep]; rfl)
  · by_cases hlarge : HASH_PASS_RELEASE_THRESHOLD < src.layout.fileSize
    · have hbelow := hinv.below (by simp [hrelease, hlarge]) pre hpre
      have hmax := src.layout.le_max
      have hlimit : src.batch + src.layout.chunkSize ≤ HASH_PASS_RELEASE_THRESHOLD := by
        unfold MappedFile.batch RELEASE_BATCH_BYTES HASH_PASS_RELEASE_THRESHOLD
        unfold MAX_CHUNK_SIZE at hmax
        omega
      omega
    · have hle := hashedBytes_le_of_prefix hpre
      omega

/-- A file of 256 MiB of zeros, on pages of 4 KiB. -/
def largeFile : MappedFile where
  map := List.replicate (2 ^ 28) 0
  layout :=
    { fileSize := 2 ^ 28
      chunkSize := 4 * 1024 * 1024
      count := 64
      fileSize_lt := by decide
      min_le := by decide
      le_max := by decide
      powerOfTwo := by decide
      count_eq := by decide }
  size_eq := by rw [List.length_replicate]
  raw := 4096
  length_lt := by
    rw [List.length_replicate]
    decide

theorem hash_pass_stays_small_large :
    ∃ p, largeFile.hashPass shortFileHash true = .ok p ∧
      largeFile.chunkHashes shortFileHash = .ok p.out ∧
      hashedBytes p.ops = 2 ^ 28 ∧ p.ops.Pairwise PageOp.Before ∧
      DropsBehind (pageSize largeFile.raw) p.ops ∧
      ∀ pre, pre <+: p.ops → hashedBytes pre ≤ droppedBytes pre + HASH_PASS_RELEASE_THRESHOLD := by
  have hpages : pageSize largeFile.raw ∣ largeFile.layout.chunkSize := by
    decide
  obtain ⟨p, hp, hout, hall, hinOrder, hbehind, -, hsmall⟩ :=
    hash_pass_stays_small shortFileHash largeFile true hpages
  exact ⟨p, hp, hout, hall, hinOrder, hbehind, hsmall rfl⟩

end AetherLink
