import AetherLink.Proto.Chunk
import Mathlib.Data.List.Range

set_option autoImplicit false

/-! # Resume bitmap

One bit per chunk, least significant first within each byte, with a cached count of the set ones.
The fields are private in the source, so every bitmap there comes from `new`, `fromBytes` and `set`;
`ChunkBitmap.Wf` is what these three keep. -/

namespace AetherLink

structure ChunkBitmap where
  bits : List UInt8
  count : Nat
  setCount : Nat
  deriving DecidableEq, Repr

/-- `u8::count_ones`. -/
def countOnes (b : UInt8) : Nat :=
  (List.range 8).countP fun k => b.toNat.testBit k

namespace ChunkBitmap

def new (count : Nat) : ChunkBitmap :=
  { bits := List.replicate (divCeil count 8) 0, count := count, setCount := 0 }

/-- Parses a peer-supplied bitmap. Rejects a byte length that disagrees with `count`, and any padding
    bit set past the end. -/
def fromBytes (bytes : List UInt8) (count : Nat) : Except Proto.Error ChunkBitmap :=
  let expected := divCeil count 8
  if bytes.length ≠ expected then .error (.bitmapLengthMismatch bytes.length expected)
  else
    let trailing := expected * 8 - count
    let paddingMask : UInt8 := ~~~((0xFF : UInt8) >>> UInt8.ofNat trailing)
    if 0 < trailing ∧ bytes.getLastD 0 &&& paddingMask ≠ 0 then .error .bitmapPaddingSet
    else .ok { bits := bytes, count := count, setCount := (bytes.map countOnes).sum }

def asBytes (b : ChunkBitmap) : List UInt8 := b.bits

def isComplete (b : ChunkBitmap) : Bool :=
  b.setCount == b.count

/-- Bit `index` of the packed bytes, reading zero past the end. -/
def has (b : ChunkBitmap) (index : Nat) : Bool :=
  (Bytes.byteAt b.bits (index / 8)).toNat.testBit (index % 8)

def get (b : ChunkBitmap) (index : Nat) : Except Proto.Error Bool :=
  if b.count ≤ index then .error (.chunkOutOfRange index b.count)
  else .ok (b.has index)

/-- Marks a chunk verified. Idempotent, so a duplicate frame after a resume does not corrupt the
    count. -/
def set (b : ChunkBitmap) (index : Nat) : Except Proto.Error ChunkBitmap :=
  if b.count ≤ index then .error (.chunkOutOfRange index b.count)
  else if b.has index then .ok b
  else
    let byte := Bytes.byteAt b.bits (index / 8)
    .ok { b with
      bits := b.bits.set (index / 8) (byte ||| (1 : UInt8) <<< UInt8.ofNat (index % 8))
      setCount := b.setCount + 1 }

/-- The scan of `missing_ranges` from index `i` on, with the run opened at `runStart`. -/
def missingRangesFrom (b : ChunkBitmap) : List Nat → Option Nat → List (Nat × Nat)
  | [], none => []
  | [], some start => [(start, b.count)]
  | i :: is, runStart =>
      match b.has i, runStart with
      | false, none => b.missingRangesFrom is (some i)
      | true, some start => (start, i) :: b.missingRangesFrom is none
      | _, _ => b.missingRangesFrom is runStart

/-- Contiguous runs of missing chunks as half-open ranges. -/
def missingRanges (b : ChunkBitmap) : List (Nat × Nat) :=
  b.missingRangesFrom (List.range b.count) none

/-- `total += layout.range(i)?.1 as u64`. -/
def addLen (layout : ChunkLayout) (total : UInt64) (i : Nat) : Except Proto.Error UInt64 :=
  match layout.range i with
  | .error e => .error e
  | .ok (_, len) => .ok (total + UInt64.ofNat len)

/-- Bytes still to transfer, given the file's chunk geometry. -/
def remainingBytes (b : ChunkBitmap) (layout : ChunkLayout) : Except Proto.Error UInt64 :=
  b.missingRanges.foldlM (fun total r =>
    (List.range' r.1 (r.2 - r.1)).foldlM (addLen layout) total) 0

/-! ## The representation invariant -/

/-- What `new`, `fromBytes` and `set` keep: the packed length, clear padding, and the cached
    count. -/
structure Wf (b : ChunkBitmap) : Prop where
  length_bits : b.bits.length = divCeil b.count 8
  padding : ∀ i, b.count ≤ i → b.has i = false
  setCount_eq : b.setCount = (List.range b.count).countP b.has

theorem le_divCeil_mul (n : Nat) : n ≤ divCeil n 8 * 8 := by
  unfold divCeil
  omega

theorem Wf.lt_length {b : ChunkBitmap} (hb : b.Wf) {i : Nat} (hi : i < b.count) :
    i / 8 < b.bits.length := by
  have := le_divCeil_mul b.count
  rw [hb.length_bits]
  omega

theorem has_new (n i : Nat) : (new n).has i = false := by
  have hz : Bytes.byteAt (List.replicate (divCeil n 8) (0 : UInt8)) (i / 8) = 0 := by
    rw [Bytes.byteAt, List.getD_eq_getElem?_getD, List.getElem?_replicate]
    split <;> rfl
  unfold has new
  simp only [hz]
  simp

theorem wf_new (n : Nat) : (new n).Wf := by
  refine ⟨by simp [new], fun i _ => has_new n i, ?_⟩
  have hnone : (List.range n).countP (new n).has = 0 := by
    rw [List.countP_eq_zero]
    intro i _
    simp [has_new]
  simp only [new] at hnone ⊢
  exact hnone.symm

/-! ### Setting a bit -/

theorem testBit_or_shift (x : UInt8) {k : Nat} (hk : k < 8) (j : Nat) :
    (x ||| (1 : UInt8) <<< UInt8.ofNat k).toNat.testBit j
    = (x.toNat.testBit j || decide (j = k)) := by
  have hall : ∀ k : Fin 8, ((1 : UInt8) <<< UInt8.ofNat k).toNat = 2 ^ k.val := by decide
  have hshift : ((1 : UInt8) <<< UInt8.ofNat k).toNat = 2 ^ k := hall ⟨k, hk⟩
  rw [UInt8.toNat_or, Nat.testBit_or, hshift, Nat.testBit_two_pow]
  congr 1
  simp only [eq_comm]

theorem has_of_set {b b' : ChunkBitmap} (hb : b.Wf) {i : Nat} (h : b.set i = .ok b') (j : Nat) :
    b'.has j = (b.has j || decide (j = i)) := by
  unfold set at h
  split at h
  · cases h
  · next hi =>
      split at h
      · next hset =>
          rw [Except.ok.injEq] at h
          subst h
          by_cases hji : j = i
          · subst hji
            simp [hset]
          · simp [hji]
      · rw [Except.ok.injEq] at h
        subst h
        have hlen := hb.lt_length (Nat.not_le.1 hi)
        unfold has
        simp only [Bytes.byteAt, List.getD_eq_getElem?_getD, List.getElem?_set]
        by_cases hq : i / 8 = j / 8
        · rw [if_pos hq, if_pos hlen, Option.getD_some, testBit_or_shift _ (by omega), hq]
          congr 1
          by_cases hji : j = i
          · subst hji
            simp
          · have : ¬j % 8 = i % 8 := by omega
            simp [hji, this]
        · rw [if_neg hq]
          have : ¬j = i := by
            rintro rfl
            exact hq rfl
          simp [this]

theorem set_ok {b : ChunkBitmap} {i : Nat} (h : i < b.count) : ∃ b', b.set i = .ok b' := by
  unfold set
  rw [if_neg (by omega)]
  split
  · exact ⟨b, rfl⟩
  · exact ⟨_, rfl⟩

theorem lt_count_of_set {b b' : ChunkBitmap} {i : Nat} (h : b.set i = .ok b') : i < b.count := by
  unfold set at h
  split at h
  · cases h
  · omega

theorem count_of_set {b b' : ChunkBitmap} {i : Nat} (h : b.set i = .ok b') : b'.count = b.count := by
  unfold set at h
  split at h
  · cases h
  · split at h
    · rw [Except.ok.injEq] at h
      rw [← h]
    · rw [Except.ok.injEq] at h
      rw [← h]

/-- Turning one false index of a range true adds its weight. -/
theorem sum_filter_range_set {n i : Nat} (hi : i < n) {p q : Nat → Bool} (hp : p i = false)
    (hq : ∀ j, q j = (p j || decide (j = i))) (f : Nat → Nat) :
    (((List.range n).filter q).map f).sum = (((List.range n).filter p).map f).sum + f i := by
  induction n with
  | zero => omega
  | succ n ih =>
      rw [List.range_succ, List.filter_append, List.filter_append, List.map_append, List.map_append,
        List.sum_append, List.sum_append]
      by_cases hin : i = n
      · subst hin
        have hsame : (List.range i).filter q = (List.range i).filter p := by
          apply List.filter_congr
          intro j hj
          have : ¬j = i := by
            have := List.mem_range.1 hj
            omega
          simp [hq, this]
        simp [hsame, hq, hp]
      · have hn : q n = p n := by
          have : ¬n = i := fun h => hin h.symm
          simp [hq, this]
        rw [ih (by omega), List.filter_cons, List.filter_cons, hn]
        simp only [List.filter_nil]
        omega

/-- It raises the number of true ones by one. -/
theorem countP_range_set {n i : Nat} (hi : i < n) {p q : Nat → Bool} (hp : p i = false)
    (hq : ∀ j, q j = (p j || decide (j = i))) :
    (List.range n).countP q = (List.range n).countP p + 1 := by
  have hones := sum_filter_range_set hi hp hq fun _ => 1
  simpa [List.countP_eq_length_filter] using hones

theorem Wf.set {b b' : ChunkBitmap} (hb : b.Wf) {i : Nat} (h : b.set i = .ok b') : b'.Wf := by
  have hhas := has_of_set hb h
  have hcount := count_of_set h
  have hi := lt_count_of_set h
  refine ⟨?_, ?_, ?_⟩
  · rw [hcount, ← hb.length_bits]
    unfold ChunkBitmap.set at h
    rw [if_neg (by omega)] at h
    split at h
    · rw [Except.ok.injEq] at h
      rw [← h]
    · rw [Except.ok.injEq] at h
      rw [← h]
      simp
  · intro j hj
    rw [hcount] at hj
    have : ¬j = i := by omega
    rw [hhas, hb.padding j hj]
    simp [this]
  · rw [hcount]
    unfold ChunkBitmap.set at h
    rw [if_neg (by omega)] at h
    split at h
    · next hset =>
        rw [Except.ok.injEq] at h
        subst h
        exact hb.setCount_eq
    · next hset =>
        rw [Except.ok.injEq] at h
        have hclear : b.has i = false := by simpa using hset
        rw [countP_range_set hi hclear hhas, ← hb.setCount_eq, ← h]

/-! ### Completeness -/

/-- The cached count says whether every index is set. -/
theorem Wf.isComplete_iff {b : ChunkBitmap} (hb : b.Wf) :
    b.isComplete = true ↔ ∀ i, i < b.count → b.has i = true := by
  have hlen : (List.range b.count).length = b.count := List.length_range
  unfold isComplete
  rw [beq_iff_eq, hb.setCount_eq]
  nth_rewrite 2 [← hlen]
  rw [List.countP_eq_length]
  simp [List.mem_range]

theorem Wf.setCount_le {b : ChunkBitmap} (hb : b.Wf) : b.setCount ≤ b.count := by
  rw [hb.setCount_eq]
  exact List.countP_le_length.trans (Nat.le_of_eq List.length_range)

theorem Wf.setCount_pos_iff {b : ChunkBitmap} (hb : b.Wf) :
    b.setCount ≠ 0 ↔ ∃ i, i < b.count ∧ b.has i = true := by
  rw [hb.setCount_eq, ← Nat.pos_iff_ne_zero, List.countP_pos_iff]
  simp [List.mem_range]

theorem Wf.lt_count {b : ChunkBitmap} (hb : b.Wf) {i : Nat} (h : b.has i = true) : i < b.count := by
  by_contra hlt
  rw [hb.padding i (by omega)] at h
  cases h

/-! ### Parsing -/

/-- The bits of the padding mask. -/
theorem testBit_paddingMask {t k : Nat} (ht : t < 8) (hk : k < 8) :
    (~~~((0xFF : UInt8) >>> UInt8.ofNat t)).toNat.testBit k = decide (8 - t ≤ k) := by
  have hall : ∀ t k : Fin 8,
      (~~~((0xFF : UInt8) >>> UInt8.ofNat t)).toNat.testBit k = decide (8 - t.val ≤ k.val) := by
    decide +kernel
  exact hall ⟨t, ht⟩ ⟨k, hk⟩

/-- The padding mask has exactly the bits above the last used one. -/
theorem padding_clear_iff (x : UInt8) {t : Nat} (ht : t < 8) :
    x &&& ~~~((0xFF : UInt8) >>> UInt8.ofNat t) = 0 ↔
      ∀ k, 8 - t ≤ k → k < 8 → x.toNat.testBit k = false := by
  rw [← UInt8.toNat_inj, UInt8.toNat_and]
  constructor
  · intro h k hlo hk
    have hbit := congrArg (Nat.testBit · k) h
    simp only [Nat.testBit_and, testBit_paddingMask ht hk, decide_eq_true hlo, Bool.and_true] at hbit
    exact hbit.trans (Nat.zero_testBit k)
  · intro h
    refine Nat.eq_of_testBit_eq fun k => ?_
    rw [Nat.testBit_and, show (0 : UInt8).toNat.testBit k = false from Nat.zero_testBit k]
    by_cases hk : k < 8
    · rw [testBit_paddingMask ht hk]
      by_cases hlo : 8 - t ≤ k
      · rw [h k hlo hk, Bool.false_and]
      · rw [decide_eq_false hlo, Bool.and_false]
    · -- a byte has no bits above the eighth
      have hlt : x.toNat < 2 ^ k :=
        lt_of_lt_of_le x.toNat_lt (Nat.pow_le_pow_right (by decide) (not_lt.1 hk))
      rw [Nat.testBit_lt_two_pow hlt, Bool.false_and]

/-- Counting the ones byte by byte is counting the set indices. -/
theorem sum_countOnes (bs : List UInt8) :
    (bs.map countOnes).sum =
      (List.range (8 * bs.length)).countP fun i => (Bytes.byteAt bs (i / 8)).toNat.testBit (i % 8) := by
  induction bs with
  | nil => rfl
  | cons b bs ih =>
      have hsplit : 8 * (b :: bs).length = 8 + 8 * bs.length := by
        rw [List.length_cons]
        omega
      rw [List.map_cons, List.sum_cons, ih, hsplit, List.range_add, List.countP_append,
        List.countP_map]
      -- the first eight indices read `b` itself, by evaluation; the others read one byte further
      congr 1
      apply List.countP_congr
      intro k _
      simp only [Function.comp_apply]
      rw [show (8 + k) / 8 = k / 8 + 1 by omega, show (8 + k) % 8 = k % 8 by omega]
      simp [Bytes.byteAt]

/-- What a successful parse returns. -/
theorem fromBytes_ok {bs : List UInt8} {n : Nat} {b : ChunkBitmap} (h : fromBytes bs n = .ok b) :
    b.bits = bs ∧ b.count = n ∧ b.Wf := by
  simp only [fromBytes] at h
  split at h
  · cases h
  · next hlen =>
      split at h
      · cases h
      · next hpad =>
          rw [Except.ok.injEq] at h
          have hbits : b.bits = bs := by rw [← h]
          have hcount : b.count = n := by rw [← h]
          have hset : b.setCount = (bs.map countOnes).sum := by rw [← h]
          have hlen' : bs.length = divCeil n 8 := by simpa using hlen
          have hpadding : ∀ i, n ≤ i → b.has i = false := by
            intro i hi
            unfold has
            rw [hbits]
            by_cases hin : i / 8 < bs.length
            · -- the last byte: the mask has cleared everything from `n` on
              have hdc : divCeil n 8 = (n + 8 - 1) / 8 := rfl
              have hlast : i / 8 = bs.length - 1 := by omega
              have hmask : bs.getLastD 0 &&&
                  ~~~((0xFF : UInt8) >>> UInt8.ofNat (divCeil n 8 * 8 - n)) = 0 := by
                by_contra hne
                exact hpad ⟨by omega, hne⟩
              have hbyte : Bytes.byteAt bs (i / 8) = bs.getLastD 0 := by
                rw [hlast, Bytes.byteAt, List.getD_eq_getElem?_getD, ← List.getLast?_eq_getElem?,
                  List.getLastD_eq_getLast?]
              rw [hbyte]
              exact (padding_clear_iff _ (by omega)).1 hmask (i % 8) (by omega) (by omega)
            · have hz : Bytes.byteAt bs (i / 8) = 0 := by
                rw [Bytes.byteAt, List.getD_eq_getElem?_getD, List.getElem?_eq_none (by omega)]
                rfl
              rw [hz]
              simp
          refine ⟨hbits, hcount, ⟨by rw [hbits, hcount, hlen'], by rwa [hcount], ?_⟩⟩
          have hle : n ≤ 8 * bs.length := by
            have := le_divCeil_mul n
            omega
          have hfun : b.has = fun i => (Bytes.byteAt bs (i / 8)).toNat.testBit (i % 8) := by
            funext i
            unfold has
            rw [hbits]
          rw [hset, hcount, sum_countOnes, hfun]
          rw [show 8 * bs.length = n + (8 * bs.length - n) by omega, List.range_add,
            List.countP_append, List.countP_map]
          rw [Nat.add_eq_left, List.countP_eq_zero]
          intro k _
          have := hpadding (n + k) (by omega)
          rw [hfun] at this
          simpa using this

/-- A bitmap is determined by its bytes and its count. -/
theorem Wf.ext {b b' : ChunkBitmap} (hb : b.Wf) (hb' : b'.Wf) (hbits : b.bits = b'.bits)
    (hcount : b.count = b'.count) : b = b' := by
  have hhas : b.has = b'.has := by
    funext i
    unfold has
    rw [hbits]
  have hset : b.setCount = b'.setCount := by
    rw [hb.setCount_eq, hb'.setCount_eq, hhas, hcount]
  cases b
  cases b'
  simp only at hbits hcount hset
  subst hbits hcount hset
  rfl

/-- **Round trip.** A well-formed bitmap parses back from its bytes. -/
theorem Wf.fromBytes_asBytes {b : ChunkBitmap} (hb : b.Wf) : fromBytes b.asBytes b.count = .ok b := by
  have hok : ∃ b', fromBytes b.asBytes b.count = .ok b' := by
    rw [show b.asBytes = b.bits from rfl]
    simp only [fromBytes]
    rw [if_neg (by simp [hb.length_bits])]
    split
    · next hpad =>
        exfalso
        obtain ⟨htr, hne⟩ := hpad
        have hdc : divCeil b.count 8 = (b.count + 8 - 1) / 8 := rfl
        apply hne
        rw [padding_clear_iff _ (by omega)]
        intro k h1 h2
        have hlast : Bytes.byteAt b.bits (divCeil b.count 8 - 1) = b.bits.getLastD 0 := by
          rw [Bytes.byteAt, List.getD_eq_getElem?_getD, ← hb.length_bits,
            ← List.getLast?_eq_getElem?, List.getLastD_eq_getLast?]
        have := hb.padding ((divCeil b.count 8 - 1) * 8 + k) (by omega)
        unfold has at this
        rw [show ((divCeil b.count 8 - 1) * 8 + k) / 8 = divCeil b.count 8 - 1 by omega,
          show ((divCeil b.count 8 - 1) * 8 + k) % 8 = k by omega, hlast] at this
        exact this
    · exact ⟨_, rfl⟩
  obtain ⟨b', hb'⟩ := hok
  obtain ⟨hbits, hcount, hwf⟩ := fromBytes_ok hb'
  rw [hb', hwf.ext hb hbits hcount]

/-! ### The bitmaps there are -/

/-- The bitmaps a program can come by: the fields are private. -/
inductive Reachable : ChunkBitmap → Prop
  | new (n : Nat) : Reachable (new n)
  | fromBytes {bs : List UInt8} {n : Nat} {b : ChunkBitmap} (h : fromBytes bs n = .ok b) :
      Reachable b
  | set {b b' : ChunkBitmap} {i : Nat} (hb : Reachable b) (h : b.set i = .ok b') : Reachable b'

/-- **Every bitmap is well formed.** -/
theorem Reachable.wf {b : ChunkBitmap} (h : b.Reachable) : b.Wf := by
  induction h with
  | new n => exact wf_new n
  | fromBytes h => exact (fromBytes_ok h).2.2
  | set _ h ih => exact ih.set h

theorem get_eq {b : ChunkBitmap} {i : Nat} (h : i < b.count) : b.get i = .ok (b.has i) := by
  rw [get, if_neg (by omega)]

/-- Setting a set bit changes nothing. -/
theorem set_set {b b' : ChunkBitmap} (hb : b.Wf) {i : Nat} (h : b.set i = .ok b') :
    b'.set i = .ok b' := by
  have hi := lt_count_of_set h
  have hhas : b'.has i = true := by simp [has_of_set hb h]
  rw [ChunkBitmap.set, count_of_set h, if_neg (by omega), if_pos hhas]

/-- Bytes of the right length with clear padding parse. -/
theorem exists_fromBytes {bs : List UInt8} {n : Nat} (hlen : bs.length = divCeil n 8)
    (hpad : ∀ i, n ≤ i → i < 8 * bs.length →
    (Bytes.byteAt bs (i / 8)).toNat.testBit (i % 8) = false) :
    ∃ b, fromBytes bs n = .ok b := by
  -- the bitmap these bytes are is well formed, so it parses back
  let b : ChunkBitmap :=
    { bits := bs
      count := n
      setCount := (List.range n).countP fun i =>
        (Bytes.byteAt bs (i / 8)).toNat.testBit (i % 8) }
  have hwf : b.Wf := by
    refine ⟨hlen, fun i hi => ?_, rfl⟩
    by_cases hin : i < 8 * bs.length
    · exact hpad i hi hin
    · have hz : Bytes.byteAt bs (i / 8) = 0 := by
        rw [Bytes.byteAt, List.getD_eq_getElem?_getD, List.getElem?_eq_none (by omega)]
        rfl
      simp [has, b, hz]
  exact ⟨b, hwf.fromBytes_asBytes⟩

/-- **The bitmap and its codec are exact.** In every bitmap there is, the packed length, the padding
    and the cached count are right; `set` makes one bit true; parsing accepts exactly the packed
    bytes with clear padding, and undoes `as_bytes`. -/
theorem bitmap_exact :
    (∀ b : ChunkBitmap, b.Reachable → b.bits.length = divCeil b.count 8 ∧
      (∀ i, b.count ≤ i → i < 8 * b.bits.length →
        (Bytes.byteAt b.bits (i / 8)).toNat.testBit (i % 8) = false) ∧
      b.setCount = (List.range b.count).countP (fun i => decide (b.get i = .ok true)) ∧
      (b.isComplete = true ↔ ∀ i, i < b.count → b.get i = .ok true)) ∧
    (∀ b : ChunkBitmap, b.Reachable → ∀ i, i < b.count → ∃ b', b.set i = .ok b' ∧
      b'.count = b.count ∧ b'.get i = .ok true ∧ (∀ j, j ≠ i → b'.get j = b.get j) ∧
      b'.set i = .ok b') ∧
    (∀ (b : ChunkBitmap) i, b.count ≤ i → b.set i = .error (.chunkOutOfRange i b.count)) ∧
    (∀ bs n, (∃ b, fromBytes bs n = .ok b) ↔ bs.length = divCeil n 8 ∧
      ∀ i, n ≤ i → i < 8 * bs.length →
        (Bytes.byteAt bs (i / 8)).toNat.testBit (i % 8) = false) ∧
    (∀ bs n b, fromBytes bs n = .ok b → b.asBytes = bs ∧ b.count = n) ∧
    (∀ b : ChunkBitmap, b.Reachable → fromBytes b.asBytes b.count = .ok b) := by
  refine ⟨fun b hb => ?_, fun b hb i hi => ?_, fun b i hi => ?_, fun bs n => ?_,
    fun bs n b h => ?_, fun b hb => hb.wf.fromBytes_asBytes⟩
  · have hget : ∀ i, i < b.count → (b.get i = .ok true ↔ b.has i = true) := by
      intro i hi
      rw [get_eq hi, Except.ok.injEq]
    refine ⟨hb.wf.length_bits, fun i hi _ => hb.wf.padding i hi, ?_, ?_⟩
    · rw [hb.wf.setCount_eq]
      apply List.countP_congr
      intro i hi
      rw [decide_eq_true_eq, hget i (List.mem_range.1 hi)]
    · rw [hb.wf.isComplete_iff]
      exact forall₂_congr fun i hi => (hget i hi).symm
  · obtain ⟨b', hb'⟩ := set_ok hi
    have hcount := count_of_set hb'
    have hhas := has_of_set hb.wf hb'
    refine ⟨b', hb', hcount, ?_, fun j hj => ?_, set_set hb.wf hb'⟩
    · rw [get_eq (by omega), hhas]
      simp
    · rw [get, get, hcount, hhas]
      simp [hj]
  · rw [ChunkBitmap.set, if_pos hi]
  · refine ⟨fun ⟨b, h⟩ => ?_, fun h => exists_fromBytes h.1 h.2⟩
    obtain ⟨rfl, rfl, hwf⟩ := fromBytes_ok h
    exact ⟨hwf.length_bits, fun i hi _ => hwf.padding i hi⟩
  · obtain ⟨hbits, hcount, -⟩ := fromBytes_ok h
    exact ⟨hbits, hcount⟩

/-! ### What is missing -/

/-- The chunks with a clear bit, in index order. -/
def missingChunks (b : ChunkBitmap) : List Nat :=
  (List.range b.count).filter fun i => !b.has i

theorem mem_missingChunks {b : ChunkBitmap} {i : Nat} :
    i ∈ b.missingChunks ↔ i < b.count ∧ b.has i = false := by
  rw [missingChunks, List.mem_filter, List.mem_range, Bool.not_eq_true']

/-- The scan from index `i` on, with `k` indices to go: first what is left of the open run, then the
    missing chunks from `i` on. -/
theorem flatMap_missingRangesFrom (b : ChunkBitmap) {k i : Nat} (hik : i + k = b.count)
    (runStart : Option Nat) (hrun : ∀ start ∈ runStart, start ≤ i) :
    (b.missingRangesFrom (List.range' i k) runStart).flatMap
        (fun r => List.range' r.1 (r.2 - r.1))
      = (runStart.elim [] fun start => List.range' start (i - start)) ++
        (List.range' i k).filter fun j => !b.has j := by
  induction k generalizing i runStart with
  | zero =>
      obtain rfl : i = b.count := by omega
      cases runStart <;> simp [missingRangesFrom]
  | succ k ih =>
      rw [List.range'_succ]
      cases hset : b.has i with
      | false =>
          have hkeep : (i :: List.range' (i + 1) k).filter (fun j => !b.has j)
              = i :: (List.range' (i + 1) k).filter fun j => !b.has j := by
            simp [hset]
          rw [hkeep]
          cases runStart with
          | none =>
              simp only [missingRangesFrom, hset]
              rw [ih (by omega) (some i) (by simp)]
              simp
          | some start =>
              have hle := hrun start rfl
              simp only [missingRangesFrom, hset]
              rw [ih (by omega) (some start) (by simpa using by omega)]
              simp only [Option.elim_some]
              rw [show i + 1 - start = i - start + 1 by omega, List.range'_concat]
              simp [Nat.add_sub_cancel' hle]
      | true =>
          have hdrop : (i :: List.range' (i + 1) k).filter (fun j => !b.has j)
              = (List.range' (i + 1) k).filter fun j => !b.has j := by
            simp [hset]
          rw [hdrop]
          cases runStart with
          | none =>
              simp only [missingRangesFrom, hset]
              rw [ih (by omega) none (by simp)]
              simp
          | some start =>
              simp only [missingRangesFrom, hset, List.flatMap_cons]
              rw [ih (by omega) none (by simp)]
              simp

/-- **The runs are the missing chunks**, in order. -/
theorem flatMap_missingRanges (b : ChunkBitmap) :
    b.missingRanges.flatMap (fun r => List.range' r.1 (r.2 - r.1)) = b.missingChunks := by
  rw [missingRanges, missingChunks, List.range_eq_range']
  simpa using b.flatMap_missingRangesFrom (Nat.zero_add b.count) none (by simp)

/-- How many bytes the missing chunks have. -/
def missingBytes (b : ChunkBitmap) (l : ChunkLayout) : Nat :=
  (b.missingChunks.map l.len).sum

/-- How many bytes the chunks with a set bit have. -/
def heldBytes (b : ChunkBitmap) (l : ChunkLayout) : Nat :=
  (((List.range b.count).filter b.has).map l.len).sum

/-- What is missing and what is held is the file. -/
theorem missingBytes_add_heldBytes {b : ChunkBitmap} {l : ChunkLayout} (h : b.count = l.count) :
    b.missingBytes l + b.heldBytes l = l.fileSize := by
  rw [missingBytes, heldBytes, missingChunks, ← l.sum_len, ← h, Nat.add_comm]
  induction List.range b.count with
  | nil => rfl
  | cons i is ih =>
      cases hi : b.has i <;> simp only [List.filter_cons, hi, Bool.not_true, Bool.not_false,
        if_true, Bool.false_eq_true, if_false, List.map_cons, List.sum_cons] at ih ⊢ <;> omega

/-- Adding up chunk lengths, in a `u64`. -/
theorem foldlM_addLen {l : ChunkLayout} {is : List Nat} (h : ∀ i ∈ is, i < l.count)
    (total : UInt64) :
    is.foldlM (addLen l) total = .ok (total + UInt64.ofNat (is.map l.len).sum) := by
  induction is generalizing total with
  | nil => simp [pure, Except.pure]
  | cons i is ih =>
      have hi : addLen l total i = .ok (total + UInt64.ofNat (l.len i)) := by
        rw [addLen, l.range_eq (h i List.mem_cons_self)]
      rw [List.foldlM_cons, hi]
      simp only [bind, Except.bind]
      rw [ih (fun j hj => h j (List.mem_cons_of_mem _ hj)), List.map_cons, List.sum_cons,
        UInt64.ofNat_add, UInt64.add_assoc]

theorem foldlM_ranges_addLen {l : ChunkLayout} {rs : List (Nat × Nat)}
    (h : ∀ i ∈ rs.flatMap (fun r => List.range' r.1 (r.2 - r.1)), i < l.count) (total : UInt64) :
    rs.foldlM (fun total r => (List.range' r.1 (r.2 - r.1)).foldlM (addLen l) total) total
      = .ok (total + UInt64.ofNat
          ((rs.flatMap fun r => List.range' r.1 (r.2 - r.1)).map l.len).sum) := by
  induction rs generalizing total with
  | nil => simp [pure, Except.pure]
  | cons r rs ih =>
      rw [List.flatMap_cons] at h
      rw [List.foldlM_cons, foldlM_addLen fun i hi => h i (List.mem_append_left _ hi)]
      simp only [bind, Except.bind]
      rw [ih fun i hi => h i (List.mem_append_right _ hi), List.flatMap_cons, List.map_append,
        List.sum_append, UInt64.ofNat_add, UInt64.add_assoc]

/-- `remaining_bytes` adds up the missing chunks. -/
theorem remainingBytes_eq {b : ChunkBitmap} {l : ChunkLayout} (h : b.count = l.count) :
    b.remainingBytes l = .ok (UInt64.ofNat (b.missingBytes l)) := by
  have hin : ∀ i ∈ b.missingRanges.flatMap (fun r => List.range' r.1 (r.2 - r.1)), i < l.count := by
    rw [flatMap_missingRanges]
    exact fun i hi => h ▸ (mem_missingChunks.1 hi).1
  rw [remainingBytes, foldlM_ranges_addLen hin, flatMap_missingRanges, UInt64.zero_add, missingBytes]

end ChunkBitmap

end AetherLink
