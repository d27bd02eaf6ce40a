import AetherLink.Proto.Bitmap
import AetherLink.Lib.Disk

set_option autoImplicit false

/-! # What a content holds of an offer

An offer commits to a layout `l` and one digest per chunk, `hs`. A content holds chunk `i` when the
bytes at the chunk's range hash to the committed digest (`ChunkHeld`); a byte string is a payload of
chunk `i` when it has the chunk's length and that digest (`IsPayload`). With no collision on the
committed digests a chunk has at most one payload, so writing any piece of any payload to its own
place, and cutting or extending the file to at least its size, lose nothing that is held: these are
the `Lawful` operations. -/

namespace AetherLink

open Bytes Storage

variable {blake3 : Blake3} {l : ChunkLayout} {hs : List Hash}

/-- The bytes of chunk `i` are in the content and hash to the digest the offer committed to. -/
def ChunkHeld (blake3 : Blake3) (l : ChunkLayout) (hs : List Hash) (c : List UInt8) (i : Nat) :
    Prop :=
  match l.range i with
  | .ok (off, len) => off + len ≤ c.length ∧ hs[i]? = some (hashChunk blake3 (slice c off len))
  | .error _ => False

instance (blake3 : Blake3) (l : ChunkLayout) (hs : List Hash) (c : List UInt8) (i : Nat) :
    Decidable (ChunkHeld blake3 l hs c i) :=
  match h : l.range i with
  | .ok (off, len) =>
      decidable_of_iff
        (off + len ≤ c.length ∧ hs[i]? = some (hashChunk blake3 (slice c off len)))
        (by simp only [ChunkHeld, h])
  | .error _ => isFalse (by simp only [ChunkHeld, h, not_false_eq_true])

/-- Every bit of the bitmap is for a chunk the content holds. -/
def Truthful (blake3 : Blake3) (l : ChunkLayout) (hs : List Hash) (c : List UInt8)
    (b : ChunkBitmap) : Prop :=
  ∀ i, b.has i = true → ChunkHeld blake3 l hs c i

/-- A byte string the receiver would take for chunk `i`. -/
structure IsPayload (blake3 : Blake3) (l : ChunkLayout) (hs : List Hash) (i : Nat)
    (p : List UInt8) : Prop where
  index : i < l.count
  length_eq : p.length = l.len i
  digest : hs[i]? = some (hashChunk blake3 p)

theorem chunkHeld_iff (c : List UInt8) (i : Nat) :
    ChunkHeld blake3 l hs c i ↔
      i < l.count ∧ l.start i + l.len i ≤ c.length ∧
        hs[i]? = some (hashChunk blake3 (slice c (l.start i) (l.len i))) := by
  unfold ChunkHeld
  by_cases hi : i < l.count
  · rw [l.range_eq hi]
    simp [hi]
  · cases hr : l.range i with
    | error e => simp [hi]
    | ok r => exact absurd ((l.range_ok_iff i r).1 hr).1 hi

/-- Holding a chunk is carrying a payload of it at its place. -/
theorem chunkHeld_iff_carries (c : List UInt8) (i : Nat) :
    ChunkHeld blake3 l hs c i ↔ ∃ p, IsPayload blake3 l hs i p ∧ Carries c (l.start i) p := by
  rw [chunkHeld_iff]
  constructor
  · rintro ⟨hi, hlen, hd⟩
    exact ⟨_, ⟨hi, length_slice_of_le hlen, hd⟩, carries_slice⟩
  · rintro ⟨p, hp, hc⟩
    have hne : p ≠ [] := by
      rintro rfl
      have := l.len_pos hp.index
      have := hp.length_eq
      simp only [List.length_nil] at this
      omega
    refine ⟨hp.index, ?_, ?_⟩
    · rw [← hp.length_eq]
      exact hc.le_length hne
    · rw [← hp.length_eq, carries_iff_slice.1 hc]
      exact hp.digest

theorem ChunkHeld.lt_count {c : List UInt8} {i : Nat} (h : ChunkHeld blake3 l hs c i) :
    i < l.count :=
  ((chunkHeld_iff c i).1 h).1

/-! ## One payload per chunk -/

section CollisionFree

variable {T : Set Hash} (hcf : CollisionFreeOn blake3 T) (hT : ∀ h ∈ hs, h ∈ T)
include hcf hT

theorem IsPayload.unique {i : Nat} {p q : List UInt8} (hp : IsPayload blake3 l hs i p)
    (hq : IsPayload blake3 l hs i q) : p = q := by
  have heq : hashChunk blake3 p = hashChunk blake3 q :=
    Option.some.inj (hp.digest.symm.trans hq.digest)
  exact hcf p q heq (hT _ (List.mem_of_getElem? hp.digest))

omit hcf hT in
/-- A data operation that cannot hurt a file of this offer: cutting or extending it to at least its
    size, or writing a piece of a payload where the payload belongs. -/
inductive Lawful (blake3 : Blake3) (l : ChunkLayout) (hs : List Hash) : DataOp → Prop
  | resize {n : Nat} (h : l.fileSize ≤ n) : Lawful blake3 l hs (.setLen n)
  | piece {i : Nat} {p : List UInt8} (hp : IsPayload blake3 l hs i p) (k n : Nat) :
      Lawful blake3 l hs (.pwrite (l.start i + k) (slice p k n))

/-- **A lawful operation keeps every prefix of a payload that is in place.** -/
theorem Lawful.carries {op : DataOp} (hop : Lawful blake3 l hs op) {i : Nat} {p c : List UInt8}
    {n : Nat} (hp : IsPayload blake3 l hs i p) (hc : Carries c (l.start i) (p.take n)) :
    Carries (op.apply c) (l.start i) (p.take n) := by
  have hend := l.start_add_len_le hp.index
  have hlen := hp.length_eq
  cases hop with
  | resize h =>
      apply hc.after_setLen
      rw [List.length_take]
      omega
  | @piece j q hq k m =>
      by_cases hij : i = j
      · -- the same chunk: the other writer has the same payload
        subst hij
        obtain rfl := hp.unique hcf hT hq
        apply hc.after_pwrite
        intro x hx h1 h2
        rw [length_slice] at h2
        rw [List.length_take] at hx
        rw [getElem?_slice, if_pos (by omega), List.getElem?_take, if_pos (by omega),
          show k + (l.start i + x - (l.start i + k)) = x by omega]
      · -- another chunk: its range is disjoint
        apply hc.after_pwrite
        intro x hx h1 h2
        rw [length_slice] at h2
        rw [List.length_take] at hx
        have hqlen := hq.length_eq
        rcases Nat.lt_or_gt_of_ne hij with h | h
        · have := l.disjoint h
          omega
        · have := l.disjoint h
          omega

/-- **A lawful operation loses no chunk.** -/
theorem Lawful.held {op : DataOp} (hop : Lawful blake3 l hs op) {c : List UInt8} {i : Nat}
    (h : ChunkHeld blake3 l hs c i) : ChunkHeld blake3 l hs (op.apply c) i := by
  obtain ⟨p, hp, hc⟩ := (chunkHeld_iff_carries c i).1 h
  have hall : p.take p.length = p := List.take_length
  refine (chunkHeld_iff_carries _ i).2 ⟨p, hp, ?_⟩
  rw [← hall] at hc ⊢
  exact hop.carries hcf hT hp hc

theorem held_applyAll {ops : List DataOp} (hops : ∀ op ∈ ops, Lawful blake3 l hs op)
    {c : List UInt8} {i : Nat} (h : ChunkHeld blake3 l hs c i) :
    ChunkHeld blake3 l hs (applyAll c ops) i :=
  applyAll_invariant (P := fun c => ChunkHeld blake3 l hs c i)
    (fun op hop _ hc => (hops op hop).held hcf hT hc) h

/-- **When a cut or extended file still holds a chunk.** A chunk that one content holds is held by
    another, sized to the file, exactly if the two have the same bytes there, zero past the end. -/
theorem held_setLen_iff {c c' : List UInt8} {i n : Nat} (h : ChunkHeld blake3 l hs c i)
    (hn : l.fileSize ≤ n) :
    ChunkHeld blake3 l hs (setLen c' n) i ↔
      ∀ k, k < l.len i → byteAt c' (l.start i + k) = byteAt c (l.start i + k) := by
  obtain ⟨p, hp, hc⟩ := (chunkHeld_iff_carries c i).1 h
  have hend := l.start_add_len_le hp.index
  have hlen := hp.length_eq
  have hfits := ((chunkHeld_iff c i).1 h).2.1
  have hsized : ∀ k, k < l.len i →
      (setLen c' n)[l.start i + k]? = some (byteAt c' (l.start i + k)) := by
    intro k hk
    rw [getElem?_setLen, if_pos (by omega)]
  have horig : ∀ k, k < l.len i → p[k]? = some (byteAt c (l.start i + k)) := by
    intro k hk
    rw [← hc k (by omega), getElem?_of_lt (by omega)]
  constructor
  · intro h' k hk
    obtain ⟨q, hq, hc'⟩ := (chunkHeld_iff_carries _ i).1 h'
    obtain rfl := hp.unique hcf hT hq
    have hbyte := hc' k (by omega)
    rw [hsized k hk, horig k hk] at hbyte
    exact Option.some.inj hbyte
  · intro hbytes
    refine (chunkHeld_iff_carries _ i).2 ⟨p, hp, fun k hk => ?_⟩
    rw [hsized k (by omega), horig k (by omega), hbytes k (by omega)]

/-! ## Chunks of a file of another length -/

omit hcf hT in
/-- The content holds chunk `i` once it is cut or extended to the file's size. -/
def HeldSized (blake3 : Blake3) (l : ChunkLayout) (hs : List Hash) (c : List UInt8) (i : Nat) :
    Prop :=
  ChunkHeld blake3 l hs (setLen c l.fileSize) i

omit hcf hT in
theorem ChunkHeld.heldSized {c : List UInt8} {i : Nat} (h : ChunkHeld blake3 l hs c i) :
    HeldSized blake3 l hs c i := by
  obtain ⟨p, hp, hc⟩ := (chunkHeld_iff_carries c i).1 h
  refine (chunkHeld_iff_carries _ i).2 ⟨p, hp, hc.after_setLen ?_⟩
  rw [hp.length_eq]
  exact l.start_add_len_le hp.index

omit hcf hT in
theorem HeldSized.lt_count {c : List UInt8} {i : Nat} (h : HeldSized blake3 l hs c i) :
    i < l.count :=
  ChunkHeld.lt_count h

omit hcf hT in
/-- In a file of its own length the chunk is held. -/
theorem HeldSized.held {c : List UInt8} {i : Nat} (h : HeldSized blake3 l hs c i)
    (hlen : c.length = l.fileSize) : ChunkHeld blake3 l hs c i := by
  rw [HeldSized, ← hlen, setLen_self] at h
  exact h

/-- It is the bytes of the chunk that count, zero past the end. -/
theorem HeldSized.of_bytes {c c' : List UInt8} {i : Nat} (h : HeldSized blake3 l hs c i)
    (hbytes : ∀ k, k < l.len i → byteAt c' (l.start i + k) = byteAt c (l.start i + k)) :
    HeldSized blake3 l hs c' i := by
  refine (held_setLen_iff hcf hT h (Nat.le_refl _)).2 fun k hk => ?_
  have hend := l.start_add_len_le h.lt_count
  rw [hbytes k hk, byteAt_setLen, if_pos (by omega)]

theorem HeldSized.applyAll {ops : List DataOp} (hops : ∀ op ∈ ops, Lawful blake3 l hs op)
    {c : List UInt8} {i : Nat} (h : HeldSized blake3 l hs c i) :
    HeldSized blake3 l hs (applyAll c ops) i := by
  refine applyAll_invariant (P := fun c => HeldSized blake3 l hs c i) (fun op hop c hc => ?_) h
  have hheld : HeldSized blake3 l hs (op.apply (setLen c l.fileSize)) i :=
    ((hops op hop).held hcf hT hc).heldSized
  refine hheld.of_bytes hcf hT fun k hk => DataOp.byteAt_apply_congr ?_ op
  have hend := l.start_add_len_le hc.lt_count
  rw [byteAt_setLen, if_pos (by omega)]

/-! ## The whole content -/

/-- Two contents that hold every chunk agree on the file's bytes. -/
theorem take_eq_of_held {c c' : List UInt8} (h : ∀ i, i < l.count → ChunkHeld blake3 l hs c i)
    (h' : ∀ i, i < l.count → ChunkHeld blake3 l hs c' i) :
    c.take l.fileSize = c'.take l.fileSize := by
  apply List.ext_getElem?
  intro pos
  rw [List.getElem?_take, List.getElem?_take]
  split
  · next hpos =>
      -- position `pos` lies in chunk `pos / chunkSize`, whose payload both contents carry
      obtain ⟨hlo, hhi⟩ := l.mem_chunk hpos
      have hi : pos / l.chunkSize < l.count := by
        rw [l.lt_count_iff]
        exact lt_of_le_of_lt (Nat.div_mul_le_self _ _) hpos
      obtain ⟨p, hp, hc⟩ := (chunkHeld_iff_carries c _).1 (h _ hi)
      obtain ⟨q, hq, hc'⟩ := (chunkHeld_iff_carries c' _).1 (h' _ hi)
      obtain rfl := hp.unique hcf hT hq
      have hlen := hp.length_eq
      have h1 := hc (pos - l.start (pos / l.chunkSize)) (by omega)
      have h2 := hc' (pos - l.start (pos / l.chunkSize)) (by omega)
      rw [Nat.add_sub_cancel' hlo] at h1 h2
      rw [h1, h2]
  · rfl

omit hcf hT in
/-- Holding a chunk is a matter of the file's own bytes. -/
theorem ChunkHeld.take {c : List UInt8} {i : Nat} (h : ChunkHeld blake3 l hs c i) :
    ChunkHeld blake3 l hs (c.take l.fileSize) i := by
  obtain ⟨p, hp, hc⟩ := (chunkHeld_iff_carries c i).1 h
  refine (chunkHeld_iff_carries _ i).2 ⟨p, hp, ?_⟩
  intro k hk
  have := l.start_add_len_le hp.index
  have := hp.length_eq
  rw [List.getElem?_take, if_pos (by omega)]
  exact hc k hk

omit hcf hT in
/-- A content that holds every chunk has at least the file's length. -/
theorem le_length_of_held {c : List UInt8} (h : ∀ i, i < l.count → ChunkHeld blake3 l hs c i) :
    l.fileSize ≤ c.length := by
  by_contra hlt
  obtain ⟨-, hhi⟩ := l.mem_chunk (show c.length < l.fileSize by omega)
  have hi : c.length / l.chunkSize < l.count := by
    rw [l.lt_count_iff]
    have := Nat.div_mul_le_self c.length l.chunkSize
    omega
  have := ((chunkHeld_iff c _).1 (h _ hi)).2.1
  omega

/-- The content an offer commits to: the file's length, and a payload in every chunk. -/
def IsContent (blake3 : Blake3) (l : ChunkLayout) (hs : List Hash) (x : List UInt8) : Prop :=
  x.length = l.fileSize ∧ ∀ i, i < l.count → ChunkHeld blake3 l hs x i

omit hcf hT in
theorem isContent_take {c : List UInt8} (h : ∀ i, i < l.count → ChunkHeld blake3 l hs c i) :
    IsContent blake3 l hs (c.take l.fileSize) := by
  refine ⟨?_, fun i hi => (h i hi).take⟩
  rw [List.length_take, Nat.min_eq_left (le_length_of_held h)]

/-- **The committed content is unique**, so a file that holds every chunk starts with it. -/
theorem IsContent.unique {x y : List UInt8} (hx : IsContent blake3 l hs x)
    (hy : IsContent blake3 l hs y) : x = y := by
  have := take_eq_of_held hcf hT hx.2 hy.2
  rwa [List.take_of_length_le (Nat.le_of_eq hx.1), List.take_of_length_le (Nat.le_of_eq hy.1)]
    at this

end CollisionFree

end AetherLink
