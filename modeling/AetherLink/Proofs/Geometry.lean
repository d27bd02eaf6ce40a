import AetherLink.Lib.Ranges
import AetherLink.Proto.Bitmap

set_option autoImplicit false

/-! # Chunks tile the file, and runs tile what is missing

Every offset that is hashed, written or resumed comes from `ChunkLayout.range`, and every chunk that
is sent comes from `missing_ranges`. The first cuts `[0, file_size)` into consecutive pieces; the
second cuts the chunks with a clear bit into maximal runs. -/

namespace AetherLink

/-! ## Chunks -/

namespace ChunkLayout

theorem range_of_count_le (l : ChunkLayout) {i : Nat} (h : l.count ≤ i) :
    l.range i = .error (.chunkOutOfRange i l.count) := by
  unfold range
  rw [if_pos h]

/-- A chunk with a successor is a whole one. -/
theorem len_of_succ (l : ChunkLayout) {i : Nat} (h : i + 1 < l.count) : l.len i = l.chunkSize := by
  have hnext := (l.lt_count_iff (i + 1)).1 h
  rw [Nat.succ_mul] at hnext
  unfold len
  omega

/-- A chunk ends where the next one starts. -/
theorem start_succ (l : ChunkLayout) {i : Nat} (h : i + 1 < l.count) :
    l.start (i + 1) = l.start i + l.len i := by
  rw [l.len_of_succ h]
  exact Nat.succ_mul _ _

/-- The last chunk ends with the file. -/
theorem start_add_len_last (l : ChunkLayout) {i : Nat} (h : i + 1 = l.count) :
    l.start i + l.len i = l.fileSize := by
  have hin := (l.lt_count_iff i).1 (by omega)
  have hout := (l.lt_count_iff (i + 1)).not.1 (by omega)
  rw [Nat.succ_mul] at hout
  unfold start len
  omega

/-- An offset of the file is inside the chunk it divides to, and inside no other. -/
theorem indexOf_iff_inside (l : ChunkLayout) (offset i : Nat) :
    l.indexOf offset = .ok i ↔
      i < l.count ∧ l.start i ≤ offset ∧ offset < l.start i + l.len i := by
  constructor
  · intro h
    have hi := l.indexOf_lt_count h
    obtain ⟨hlt, rfl⟩ := (l.indexOf_ok_iff offset i).1 h
    exact ⟨hi, l.mem_chunk hlt⟩
  · rintro ⟨hi, hle, hlt⟩
    have hend := l.start_add_len_le hi
    have hlen := l.len_le i
    refine (l.indexOf_ok_iff offset i).2 ⟨by omega, ?_⟩
    have hnext : offset < (i + 1) * l.chunkSize := by
      rw [Nat.succ_mul]
      unfold start at hlt
      omega
    exact (Nat.div_eq_of_lt_le hle hnext).symm

/-- **Chunk geometry tiles the file.** Below the count, `range` computes without overflow or
    truncation and returns a nonempty piece of at most one chunk size; the pieces are consecutive from
    zero to the file size. It fails from the count on. `index_of` finds the piece an offset is in, and
    fails from the file size on. The lengths add up to the file size, and only the empty file has no
    chunk. -/
theorem tiles_file {fileSize : UInt64} {chunkSize : UInt32} {l : ChunkLayout}
    (h : new fileSize chunkSize = .ok l) :
    (∀ i, i < l.count → i * chunkSize.toNat < 2 ^ 64 ∧ i * chunkSize.toNat ≤ fileSize.toNat ∧
      min (fileSize.toNat - i * chunkSize.toNat) chunkSize.toNat < 2 ^ 32 ∧
      ∃ offset len, l.range i = .ok (offset, len) ∧ offset = i * chunkSize.toNat ∧
        len = min (fileSize.toNat - offset) chunkSize.toNat ∧ 0 < len ∧ len ≤ chunkSize.toNat) ∧
    (∀ i, (∃ e, l.range i = .error e) ↔ l.count ≤ i) ∧
    (∀ offset len, l.range 0 = .ok (offset, len) → offset = 0) ∧
    (∀ i offset len offset' len', l.range i = .ok (offset, len) →
      l.range (i + 1) = .ok (offset', len') → offset' = offset + len) ∧
    (∀ i offset len, i + 1 = l.count → l.range i = .ok (offset, len) →
      offset + len = fileSize.toNat) ∧
    (∀ offset i, l.indexOf offset = .ok i ↔
      ∃ start len, l.range i = .ok (start, len) ∧ start ≤ offset ∧ offset < start + len) ∧
    (∀ offset, (∃ e, l.indexOf offset = .error e) ↔ fileSize.toNat ≤ offset) ∧
    (∃ lens, (List.range l.count).mapM (fun i => (l.range i).map Prod.snd) = .ok lens ∧
      lens.sum = fileSize.toNat) ∧
    (l.count = 0 ↔ fileSize = 0) := by
  obtain ⟨hfile, hchunk⟩ := new_ok h
  rw [← hfile, ← hchunk]
  refine ⟨fun i hi => ?_, fun i => ?_, fun offset len hr => ?_,
      fun i offset len offset' len' hr hr' => ?_,
    fun i offset len hi hr => ?_, fun offset i => ?_, fun offset => ?_, ?_, ?_⟩
  · have hlt := (l.lt_count_iff i).1 hi
    exact ⟨lt_trans hlt l.fileSize_lt, Nat.le_of_lt hlt, lt_of_le_of_lt (l.len_le i) l.chunkSize_lt,
      l.start i, l.len i, l.range_eq hi, rfl, rfl, l.len_pos hi, l.len_le i⟩
  · constructor
    · rintro ⟨e, he⟩
      by_contra hlt
      rw [l.range_eq (Nat.not_le.1 hlt)] at he
      cases he
    · exact fun hle => ⟨_, l.range_of_count_le hle⟩
  · obtain ⟨-, heq⟩ := (l.range_ok_iff 0 _).1 hr
    rw [(Prod.mk.inj heq).1]
    exact Nat.zero_mul _
  · obtain ⟨-, heq⟩ := (l.range_ok_iff i _).1 hr
    obtain ⟨hi', heq'⟩ := (l.range_ok_iff (i + 1) _).1 hr'
    obtain ⟨rfl, rfl⟩ := Prod.mk.inj heq
    rw [(Prod.mk.inj heq').1, l.start_succ hi']
  · obtain ⟨-, heq⟩ := (l.range_ok_iff i _).1 hr
    obtain ⟨rfl, rfl⟩ := Prod.mk.inj heq
    exact l.start_add_len_last hi
  · rw [indexOf_iff_inside]
    constructor
    · rintro ⟨hi, hin⟩
      exact ⟨l.start i, l.len i, l.range_eq hi, hin⟩
    · rintro ⟨start, len, hr, hin⟩
      obtain ⟨hi, heq⟩ := (l.range_ok_iff i _).1 hr
      obtain ⟨rfl, rfl⟩ := Prod.mk.inj heq
      exact ⟨hi, hin⟩
  · unfold indexOf
    by_cases hle : l.fileSize ≤ offset
    · rw [if_pos hle]
      exact iff_of_true ⟨_, rfl⟩ hle
    · rw [if_neg hle]
      exact iff_of_false (fun ⟨e, he⟩ => by cases he) hle
  · refine ⟨(List.range l.count).map l.len, ?_, l.sum_len⟩
    have hall : ∀ is : List Nat, (∀ i ∈ is, i < l.count) →
        is.mapM (fun i => (l.range i).map Prod.snd) = .ok (is.map l.len) := by
      intro is his
      induction is with
      | nil => rfl
      | cons i is ih =>
          rw [List.mapM_cons, l.range_eq (his i List.mem_cons_self),
            ih fun j hj => his j (List.mem_cons_of_mem _ hj)]
          rfl
    exact hall _ fun i hi => List.mem_range.1 hi
  · have hcount := (l.lt_count_iff 0).not
    rw [Nat.zero_mul, Nat.not_lt, Nat.not_lt, Nat.le_zero, Nat.le_zero] at hcount
    rw [hcount, hfile, ← UInt64.toNat_inj]
    rfl

/-- A file of two chunks, the second of one byte. -/
theorem tiles_file_short : ∃ l, new 65537 65536 = .ok l ∧
    ∀ offset i, l.indexOf offset = .ok i ↔
      ∃ start len, l.range i = .ok (start, len) ∧ start ≤ offset ∧ offset < start + len := by
  obtain ⟨l, hl⟩ : ∃ l, new 65537 65536 = .ok l := ⟨_, rfl⟩
  exact ⟨l, hl, (tiles_file hl).2.2.2.2.2.1⟩

end ChunkLayout

/-! ## Missing runs -/

namespace ChunkBitmap

/-- Half-open ranges of chunk indices, in order with a set chunk between two of them, which have
    exactly the chunks with a clear bit. -/
structure RunsOf (b : ChunkBitmap) (rs : List (Nat × Nat)) : Prop where
  within : ∀ r ∈ rs, r.1 < r.2 ∧ r.2 ≤ b.count
  gap : rs.IsChain fun r r' => r.2 < r'.1 ∧ b.get r.2 = .ok true
  covers : ∀ i, i < b.count → ((∃ r ∈ rs, r.1 ≤ i ∧ i < r.2) ↔ b.get i = .ok false)

theorem get_false_iff {b : ChunkBitmap} {i : Nat} (h : i < b.count) :
    b.get i = .ok false ↔ b.has i = false := by
  rw [get_eq h, Except.ok.injEq]

/-- The runs of a bitmap are the maximal runs of its clear bits. -/
theorem runsOf_iff {b : ChunkBitmap} {rs : List (Nat × Nat)} :
    b.RunsOf rs ↔ Ranges.IsRuns (fun i => b.has i = false) 0 b.count rs := by
  constructor
  · intro h
    refine ⟨fun r hr => ⟨Nat.zero_le _, h.within r hr⟩,
      Ranges.IsRuns.apart_of_isChain (fun r hr => (h.within r hr).1)
        (h.gap.imp fun _ _ hgap => hgap.1), fun i _ hi => ?_⟩
    rw [← get_false_iff hi]
    exact h.covers i hi
  · intro h
    refine ⟨fun r hr => (h.within r hr).2, ?_, fun i hi => ?_⟩
    · -- the chunk a range ends at is in no range, so its bit is set
      have hpair : rs.Pairwise fun r r' => r.2 < r'.1 ∧ b.get r.2 = .ok true := by
        refine h.apart.imp_of_mem fun {r r'} hr hr' hlt => ⟨hlt, ?_⟩
        have hin := h.within r' hr'
        have hend : r.2 < b.count := by omega
        rw [get_eq hend, Except.ok.injEq, ← Bool.not_eq_false]
        exact fun hclear => h.not_has_end hr ((h.has_iff r.2 (Nat.zero_le _) hend).2 hclear)
      exact hpair.isChain
    · rw [get_false_iff hi]
      exact h.has_iff i (Nat.zero_le _) hi

/-- The scan from `i` on finds the runs from the start of the open one on. -/
theorem isRuns_missingRangesFrom (b : ChunkBitmap) {k i : Nat} (hik : i + k = b.count)
    (runStart : Option Nat)
    (hrun : ∀ start ∈ runStart, start < i ∧ ∀ j, start ≤ j → j < i → b.has j = false) :
    Ranges.IsRuns (fun j => b.has j = false) (runStart.getD i) b.count
      (b.missingRangesFrom (List.range' i k) runStart) := by
  induction k generalizing i runStart with
  | zero =>
      obtain rfl : i = b.count := by omega
      cases runStart with
      | none => exact .nil fun j hlo hhi => by simp at hlo; omega
      | some start =>
          obtain ⟨hlt, hclear⟩ := hrun start rfl
          exact .last hlt hclear
  | succ k ih =>
      rw [List.range'_succ]
      cases hset : b.has i with
      | false =>
          -- the open run, or the one that opens here, goes on
          cases runStart with
          | none =>
              simp only [missingRangesFrom, hset]
              refine ih (i := i + 1) (by omega) (some i) fun start hstart => ?_
              obtain rfl := Option.some.inj hstart
              refine ⟨Nat.lt_succ_self _, fun j hlo hhi => ?_⟩
              obtain rfl : j = i := by omega
              exact hset
          | some start =>
              obtain ⟨hlt, hclear⟩ := hrun start rfl
              simp only [missingRangesFrom, hset]
              refine ih (i := i + 1) (by omega) (some start) fun start' hstart' => ?_
              obtain rfl := Option.some.inj hstart'
              refine ⟨by omega, fun j hlo hhi => ?_⟩
              by_cases hj : j = i
              · exact hj ▸ hset
              · exact hclear j hlo (by omega)
      | true =>
          have hnot : ¬ b.has i = false := by simp [hset]
          cases runStart with
          | none =>
              simp only [missingRangesFrom, hset]
              exact .skip hnot (ih (i := i + 1) (by omega) none (by simp))
          | some start =>
              obtain ⟨hlt, hclear⟩ := hrun start rfl
              simp only [missingRangesFrom, hset]
              exact .cons hlt (by omega) hclear hnot (ih (i := i + 1) (by omega) none (by simp))

theorem runsOf_missingRanges (b : ChunkBitmap) : b.RunsOf b.missingRanges := by
  rw [runsOf_iff, missingRanges, List.range_eq_range']
  exact b.isRuns_missingRangesFrom (Nat.zero_add _) none (by simp)

/-- **`missing_ranges` is the decomposition of the missing chunks into maximal runs**, the only one
    there is. It is empty for the complete bitmap alone. -/
theorem missing_ranges_canonical {b : ChunkBitmap} (hb : b.Wf) :
    b.RunsOf b.missingRanges ∧ (b.missingRanges = [] ↔ b.isComplete = true) ∧
      ∀ rs, b.RunsOf rs → rs = b.missingRanges := by
  have hruns := b.runsOf_missingRanges
  refine ⟨hruns, ?_, fun rs hrs => (runsOf_iff.1 hrs).unique (runsOf_iff.1 hruns)⟩
  rw [hb.isComplete_iff]
  constructor
  · intro hnil i hi
    rw [← Bool.not_eq_false]
    intro hclear
    obtain ⟨r, hr, -⟩ := (hruns.covers i hi).2 ((get_false_iff hi).2 hclear)
    rw [hnil] at hr
    cases hr
  · intro hall
    refine List.eq_nil_iff_forall_not_mem.2 fun r hr => ?_
    obtain ⟨hlt, hle⟩ := hruns.within r hr
    have hclear := (hruns.covers r.1 (by omega)).1 ⟨r, hr, Nat.le_refl _, hlt⟩
    rw [get_false_iff (by omega), hall r.1 (by omega)] at hclear
    cases hclear

/-- Ten chunks, of which the first, the fourth and the fifth are there. -/
theorem missing_ranges_canonical_ten : ∃ b : ChunkBitmap, b.Wf ∧
    b.missingRanges = [(1, 3), (5, 10)] ∧ ∀ rs, b.RunsOf rs → rs = b.missingRanges := by
  have hparse : fromBytes [0x19, 0x00] 10
      = .ok { bits := [0x19, 0x00], count := 10, setCount := 3 } :=
    by decide
  obtain ⟨-, -, hwf⟩ := fromBytes_ok hparse
  exact ⟨_, hwf, by decide, (missing_ranges_canonical hwf).2.2⟩

end ChunkBitmap

end AetherLink
