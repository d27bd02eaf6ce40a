import AetherLink.Core.Abort
import AetherLink.Lib.Tally
import AetherLink.Proofs.Accepted

set_option autoImplicit false

/-! # Arithmetic before `Accept`

Nothing in the offer loop bounds its sums. What bounds them is that an entry comes to be added only
after its digests have been counted, 32 bytes for every chunk, and that the digests of all entries came
in one control frame: the sums stay below what `MAX_FRAME_PAYLOAD` bytes of digests stand for in chunks
of the largest size (`Budgeted`), which is far below `2 ^ 64`. -/

namespace AetherLink

open Storage

/-! ## The length of an offer on the wire -/

/-- The field of a number: its tag and a varint. A zero is left out. -/
def numberField (n : Nat) : Nat :=
  if n = 0 then 0 else 1 + varintLength n

/-- The field of a string or of bytes. An empty one is left out. -/
def bytesField (n : Nat) : Nat :=
  if n = 0 then 0 else fieldLength n

def WireEntry.encodedLength (e : WireEntry) : Nat :=
  numberField e.fileId.toNat + bytesField (textLength e.relativePath) +
    numberField e.sizeBytes.toNat + bytesField (textLength e.mimeType) +
    bytesField e.rootHash.length + bytesField e.chunkHashes.length +
    numberField e.modifiedUnixMs.toUInt64.toNat + numberField e.createdUnixMs.toUInt64.toNat

/-- The payload of a control frame with this offer. -/
def offerLength (chunkSize : UInt32) (files : List WireEntry) : Nat :=
  fieldLength (numberField chunkSize.toNat + (files.map fun e => fieldLength e.encodedLength).sum)

theorem le_bytesField (n : Nat) : n ≤ bytesField n := by
  unfold bytesField fieldLength
  split
  · omega
  · omega

theorem WireEntry.chunkHashes_le (e : WireEntry) : e.chunkHashes.length ≤ e.encodedLength := by
  have := le_bytesField e.chunkHashes.length
  unfold encodedLength
  omega

/-- The digests of an offer are part of its payload. -/
theorem sum_chunkHashes_le (chunkSize : UInt32) (files : List WireEntry) :
    (files.map fun e => e.chunkHashes.length).sum ≤ offerLength chunkSize files := by
  have hsum : (files.map fun e => e.chunkHashes.length).sum
      ≤ (files.map fun e => fieldLength e.encodedLength).sum := by
    refine List.sum_le_sum fun e _ => ?_
    have := e.chunkHashes_le
    unfold fieldLength
    omega
  unfold offerLength
  rw [fieldLength]
  omega

/-- What the loop reads of the entries on the wire, with the outcomes of their system calls. -/
def received (xs : List (WireEntry × EntryIo)) : List (FileEntry × EntryIo) :=
  xs.map fun x => (x.1.toFileEntry, x.2)

/-! ## What the loop computes -/

/-- The loop comes to the entry `x` in the state `st`. -/
def Reaches (blake3 : Blake3) (config : Config) (outputDir : FilePath) (chunkSize : UInt32)
    (disk : FileSystem) (xs : List (FileEntry × EntryIo)) (st : OfferState)
    (x : FileEntry × EntryIo) : Prop :=
  ∃ pre post, xs = pre ++ x :: post ∧
    offerLoop blake3 config outputDir chunkSize (.init disk) pre = .ok st

/-- The entry `x` is accepted, and starts with this bitmap. -/
structure StartsWith (blake3 : Blake3) (config : Config) (outputDir : FilePath) (chunkSize : UInt32)
    (disk : FileSystem) (xs : List (FileEntry × EntryIo)) (st : OfferState)
    (x : FileEntry × EntryIo) (c : Checked) (bitmap : ChunkBitmap) : Prop where
  reaches : Reaches blake3 config outputDir chunkSize disk xs st x
  checked : checkEntry blake3 config outputDir chunkSize st.seenPaths x.1 = .ok c
  initial : ∃ fs sink,
    SinkFile.create st.disk c.dest x.1.sizeBytes chunkSize x.2.sink = (fs, .ok sink) ∧
    initialBitmap blake3 config.resume fs (st.disk.pathExists c.dest) sink c x.2 = .ok bitmap

/-- The results, as numbers, of the arithmetic in the loop. `split_hashes` is called with the count of
    a layout, if the checks before it pass; the others come once the bitmap is there. -/
inductive Computes (blake3 : Blake3) (config : Config) (outputDir : FilePath) (chunkSize : UInt32)
    (disk : FileSystem) (xs : List (FileEntry × EntryIo)) : Nat → Prop
  | hashBytes {st : OfferState} {x : FileEntry × EntryIo} {layout : ChunkLayout}
      (hx : Reaches blake3 config outputDir chunkSize disk xs st x)
      (hlayout : ChunkLayout.new x.1.sizeBytes chunkSize = .ok layout) :
      Computes blake3 config outputDir chunkSize disk xs (layout.count * 32)
  | setBytes {st : OfferState} {x : FileEntry × EntryIo} {c : Checked} {bitmap : ChunkBitmap}
      (hx : StartsWith blake3 config outputDir chunkSize disk xs st x c bitmap) :
      Computes blake3 config outputDir chunkSize disk xs (bitmap.setCount * chunkSize.toNat)
  | resumedBytes {st : OfferState} {x : FileEntry × EntryIo} {c : Checked} {bitmap : ChunkBitmap}
      (hx : StartsWith blake3 config outputDir chunkSize disk xs st x c bitmap) :
      Computes blake3 config outputDir chunkSize disk xs
        (st.resumedBytes.toNat + bitmap.setCount * chunkSize.toNat)
  | totalBytes {st : OfferState} {x : FileEntry × EntryIo} {c : Checked} {bitmap : ChunkBitmap}
      (hx : StartsWith blake3 config outputDir chunkSize disk xs st x c bitmap) :
      Computes blake3 config outputDir chunkSize disk xs
        (st.totalBytes.toNat + x.1.sizeBytes.toNat)

section Loop

variable {blake3 : Blake3} {config : Config} {outputDir : FilePath} {chunkSize : UInt32}
  {disk : FileSystem}

theorem initialBitmap_wf {resume : Bool} {fs : FileSystem} {preexisting : Bool} {sink : SinkFile}
    {c : Checked} {io : EntryIo} {b : ChunkBitmap}
    (h : initialBitmap blake3 resume fs preexisting sink c io = .ok b) : b.Wf := by
  rcases initialBitmap_cases h with ⟨-, -, hload⟩ | ⟨-, rfl | hrebuilt⟩
  · exact Resume.load_wf hload
  · exact ChunkBitmap.wf_new _
  · exact (Resume.rebuildByVerification_ok hrebuilt).wf

/-- What counts as already there of a file is bounded by its digests, as its size is. -/
theorem StartsWith.set_le_hashes {xs : List (FileEntry × EntryIo)} {st : OfferState}
    {x : FileEntry × EntryIo} {c : Checked} {bitmap : ChunkBitmap}
    (h : StartsWith blake3 config outputDir chunkSize disk xs st x c bitmap)
    (hcount : bitmap.count = c.layout.count) :
    bitmap.setCount * chunkSize.toNat * 32 ≤ x.1.chunkHashes.length * MAX_CHUNK_SIZE := by
  obtain ⟨hc, -⟩ := checkEntry_ok h.checked
  obtain ⟨fs, sink, -, hbitmap⟩ := h.initial
  have hset : bitmap.setCount ≤ c.layout.count := hcount ▸ (initialBitmap_wf hbitmap).setCount_le
  rw [← hc.layout_chunkSize]
  exact (Nat.mul_le_mul_right 32 (Nat.mul_le_mul_right _ hset)).trans hc.chunks_le_hashes

/-- The sums after the entries `pre` are what `pre` adds up to, and their digests bound them. -/
structure Budgeted (pre : List (FileEntry × EntryIo)) (st : OfferState) : Prop where
  total_eq : st.totalBytes.toNat = (pre.map fun x => x.1.sizeBytes.toNat).sum
  total_le : st.totalBytes.toNat * 32 ≤ (pre.map fun x => x.1.chunkHashes.length).sum * MAX_CHUNK_SIZE
  resumed_le :
    st.resumedBytes.toNat * 32 ≤ (pre.map fun x => x.1.chunkHashes.length).sum * MAX_CHUNK_SIZE

/-- The digests that fit in a control frame, in chunks of the largest size. -/
theorem frame_budget {n sum : Nat} (hsum : sum ≤ MAX_FRAME_PAYLOAD)
    (hn : n * 32 ≤ sum * MAX_CHUNK_SIZE) : n < 2 ^ 64 := by
  have hframe : sum * MAX_CHUNK_SIZE ≤ MAX_FRAME_PAYLOAD * MAX_CHUNK_SIZE :=
    Nat.mul_le_mul_right _ hsum
  have hmax : MAX_FRAME_PAYLOAD * MAX_CHUNK_SIZE = 2 ^ 49 := by decide
  omega

/-- Both sums, with the next entry added. -/
theorem Budgeted.sums {pre : List (FileEntry × EntryIo)} {st : OfferState}
    {xs : List (FileEntry × EntryIo)} {x : FileEntry × EntryIo} {c : Checked} {bitmap : ChunkBitmap}
    (h : Budgeted pre st)
    (hx : StartsWith blake3 config outputDir chunkSize disk xs st x c bitmap)
    (hcount : bitmap.count = c.layout.count) :
    (st.totalBytes.toNat + x.1.sizeBytes.toNat) * 32
      ≤ ((pre ++ [x]).map fun x => x.1.chunkHashes.length).sum * MAX_CHUNK_SIZE ∧
    (st.resumedBytes.toNat + bitmap.setCount * chunkSize.toNat) * 32
      ≤ ((pre ++ [x]).map fun x => x.1.chunkHashes.length).sum * MAX_CHUNK_SIZE := by
  have hsize := (checkEntry_ok hx.checked).1.size_le_hashes
  have hset := hx.set_le_hashes hcount
  have htotal := h.total_le
  have hresumed := h.resumed_le
  rw [List.map_append, List.sum_append, List.map_singleton, List.sum_singleton, Nat.add_mul _ _ 32,
    Nat.add_mul _ _ 32, Nat.add_mul _ _ MAX_CHUNK_SIZE]
  exact ⟨Nat.add_le_add htotal hsize, Nat.add_le_add hresumed hset⟩

/-- **Step lemma.** -/
theorem Budgeted.step {pre : List (FileEntry × EntryIo)} {st st' : OfferState}
    {xs : List (FileEntry × EntryIo)} {x : FileEntry × EntryIo} {c : Checked}
    (h : Budgeted pre st)
    (hframe : ((pre ++ [x]).map fun x => x.1.chunkHashes.length).sum ≤ MAX_FRAME_PAYLOAD)
    (hbitmaps : ∀ bitmap, StartsWith blake3 config outputDir chunkSize disk xs st x c bitmap →
      bitmap.count = c.layout.count)
    (hreach : Reaches blake3 config outputDir chunkSize disk xs st x)
    (hcheck : checkEntry blake3 config outputDir chunkSize st.seenPaths x.1 = .ok c)
    (hopen : openEntry blake3 config chunkSize st x.1 c x.2 = .ok st') :
    Budgeted (pre ++ [x]) st' := by
  obtain ⟨fs, sink, bitmap, hcreate, hbitmap, rfl⟩ := openEntry_eq_ok hopen
  have hx : StartsWith blake3 config outputDir chunkSize disk xs st x c bitmap :=
    ⟨hreach, hcheck, fs, sink, hcreate, hbitmap⟩
  obtain ⟨htotal, hresumed⟩ := h.sums hx (hbitmaps bitmap hx)
  have hlt := frame_budget hframe htotal
  have hlt' := frame_budget hframe hresumed
  have hset : (UInt64.ofNat bitmap.setCount * chunkSize.toUInt64).toNat
      = bitmap.setCount * chunkSize.toNat := by
    rw [← UInt64.ofNat_uInt32ToNat, ← UInt64.ofNat_mul]
    exact UInt64.toNat_ofNat_of_lt' (lt_of_le_of_lt (Nat.le_add_left _ _) hlt')
  have htotal' : (st.totalBytes + x.1.sizeBytes).toNat
      = st.totalBytes.toNat + x.1.sizeBytes.toNat := by
    rw [UInt64.toNat_add, Nat.mod_eq_of_lt hlt]
  have hresumed' : (st.resumedBytes + UInt64.ofNat bitmap.setCount * chunkSize.toUInt64).toNat
      = st.resumedBytes.toNat + bitmap.setCount * chunkSize.toNat := by
    rw [UInt64.toNat_add, hset, Nat.mod_eq_of_lt hlt']
  refine ⟨?_, htotal'.symm ▸ htotal, hresumed'.symm ▸ hresumed⟩
  rw [htotal', h.total_eq, List.map_append, List.sum_append, List.map_singleton, List.sum_singleton]

/-- **Run lemma.** Wherever the loop has come to in an offer whose digests fit a frame. -/
theorem budgeted_offerLoop {xs : List (FileEntry × EntryIo)}
    (hframe : (xs.map fun x => x.1.chunkHashes.length).sum ≤ MAX_FRAME_PAYLOAD)
    (hbitmaps : ∀ st x c bitmap,
      StartsWith blake3 config outputDir chunkSize disk xs st x c bitmap →
      bitmap.count = c.layout.count)
    {pre post : List (FileEntry × EntryIo)} (hxs : xs = pre ++ post) {st : OfferState}
    (h : offerLoop blake3 config outputDir chunkSize (.init disk) pre = .ok st) :
    Budgeted pre st := by
  induction pre using List.reverseRecOn generalizing post st with
  | nil =>
      obtain rfl := Except.ok.inj h
      exact ⟨rfl, Nat.zero_le _, Nat.zero_le _⟩
  | append_singleton pre x ih =>
      obtain ⟨s, c, hpre, hcheck, hopen⟩ := offerLoop_concat h
      have hsplit : xs = pre ++ x :: post := by rw [hxs, List.append_assoc, List.singleton_append]
      have hpart : ((pre ++ [x]).map fun x => x.1.chunkHashes.length).sum ≤ MAX_FRAME_PAYLOAD := by
        rw [hxs, List.map_append, List.sum_append] at hframe
        omega
      exact (ih hsplit hpre).step hpart (fun bitmap => hbitmaps s x c bitmap)
        ⟨pre, post, hsplit, hpre⟩ hcheck hopen

theorem count_mul_32_lt (l : ChunkLayout) : l.count * 32 < 2 ^ 64 := by
  by_contra hge
  have hlt := (l.lt_count_iff (2 ^ 58)).1 (by omega)
  have hsize := l.fileSize_lt
  have hmul := Nat.mul_le_mul_left (2 ^ 58) l.min_le
  have hmin : MIN_CHUNK_SIZE = 65536 := by decide
  rw [hmin] at hmul
  omega

/-- **No arithmetic before `Accept` overflows.** For an offer that came in one control frame, whatever
    its sizes and whatever is configured, and as long as the files start with a bit for every chunk,
    every product and every sum is below `2 ^ 64` wherever the loop comes to, accepted or refused; so
    the total of an accepted offer is that of its sizes. -/
theorem offer_arithmetic_fits {xs : List (WireEntry × EntryIo)}
    (hframe : offerLength chunkSize (xs.map Prod.fst) ≤ MAX_FRAME_PAYLOAD)
    (hbitmaps : ∀ st x c bitmap,
      StartsWith blake3 config outputDir chunkSize disk (received xs) st x c bitmap →
      bitmap.count = c.layout.count) :
    (∀ n, Computes blake3 config outputDir chunkSize disk (received xs) n → n < 2 ^ 64) ∧
    ∀ st, offerLoop blake3 config outputDir chunkSize (.init disk) (received xs) = .ok st →
      st.totalBytes.toNat = (xs.map fun x => x.1.sizeBytes.toNat).sum := by
  have hhashes : ((received xs).map fun x => x.1.chunkHashes.length).sum ≤ MAX_FRAME_PAYLOAD := by
    have hle := sum_chunkHashes_le chunkSize (xs.map Prod.fst)
    rw [List.map_map] at hle
    rw [received, List.map_map]
    exact hle.trans hframe
  have hadded : ∀ {st x c bitmap},
      StartsWith blake3 config outputDir chunkSize disk (received xs) st x c bitmap →
      st.totalBytes.toNat + x.1.sizeBytes.toNat < 2 ^ 64 ∧
        st.resumedBytes.toNat + bitmap.setCount * chunkSize.toNat < 2 ^ 64 := by
    intro st x c bitmap hx
    obtain ⟨pre, post, hsplit, hpre⟩ := hx.reaches
    have hpart : ((pre ++ [x]).map fun x => x.1.chunkHashes.length).sum ≤ MAX_FRAME_PAYLOAD := by
      rw [hsplit, List.append_cons, List.map_append, List.sum_append] at hhashes
      omega
    obtain ⟨htotal, hresumed⟩ := (budgeted_offerLoop hhashes hbitmaps hsplit hpre).sums hx
      (hbitmaps st x c bitmap hx)
    exact ⟨frame_budget hpart htotal, frame_budget hpart hresumed⟩
  refine ⟨fun n hn => ?_, fun st h => ?_⟩
  · cases hn with
    | hashBytes hx hlayout => exact count_mul_32_lt _
    | setBytes hx => exact lt_of_le_of_lt (Nat.le_add_left _ _) (hadded hx).2
    | resumedBytes hx => exact (hadded hx).2
    | totalBytes hx => exact (hadded hx).1
  · rw [(budgeted_offerLoop hhashes hbitmaps (List.append_nil _).symm h).total_eq, received,
      List.map_map]
    rfl

end Loop

/-! ### Two files, both held -/

/-- What the loop comes to the `n`-th entry with and starts it with, if it accepts it. -/
def startOf (blake3 : Blake3) (config : Config) (outputDir : FilePath) (chunkSize : UInt32)
    (disk : FileSystem) (xs : List (FileEntry × EntryIo)) (n : Nat) :
    Option (OfferState × Checked × ChunkBitmap) := do
  let x ← xs[n]?
  let st ← (offerLoop blake3 config outputDir chunkSize (.init disk) (xs.take n)).toOption
  let c ← (checkEntry blake3 config outputDir chunkSize st.seenPaths x.1).toOption
  let created := SinkFile.create st.disk c.dest x.1.sizeBytes chunkSize x.2.sink
  let sink ← created.2.toOption
  let bitmap ← (initialBitmap blake3 config.resume created.1 (st.disk.pathExists c.dest) sink c
    x.2).toOption
  return (st, c, bitmap)

theorem startsWith_iff {blake3 : Blake3} {config : Config} {outputDir : FilePath}
    {chunkSize : UInt32} {disk : FileSystem} {xs : List (FileEntry × EntryIo)} {st : OfferState}
    {x : FileEntry × EntryIo} {c : Checked} {bitmap : ChunkBitmap} :
    StartsWith blake3 config outputDir chunkSize disk xs st x c bitmap ↔
      ∃ n, xs[n]? = some x ∧
        startOf blake3 config outputDir chunkSize disk xs n = some (st, c, bitmap) := by
  constructor
  · rintro ⟨⟨pre, post, rfl, hpre⟩, hcheck, fs, sink, hcreate, hbitmap⟩
    refine ⟨pre.length, by simp, ?_⟩
    simp [startOf, hpre, hcheck, hcreate, hbitmap, Except.toOption]
  · rintro ⟨n, hx, hstart⟩
    simp only [startOf, hx, Option.bind_eq_bind, Option.bind_some, Option.bind_eq_some_iff] at hstart
    obtain ⟨st', hst', c', hc', sink, hsink, b, hb, heq⟩ := hstart
    cases heq
    have hlt : n < xs.length := (List.getElem?_eq_some_iff.1 hx).1
    refine ⟨⟨xs.take n, xs.drop (n + 1), ?_, toOption_eq_some.1 hst'⟩, toOption_eq_some.1 hc', _,
      sink, Prod.ext rfl (toOption_eq_some.1 hsink), toOption_eq_some.1 hb⟩
    rw [← (List.getElem?_eq_some_iff.1 hx).2, List.cons_getElem_drop_succ, List.take_append_drop]

/-- Two one-byte files offered with their MIME types. -/
def twoFilesReceived : List (WireEntry × EntryIo) :=
  [({ oneByteEntry 0 "a" rootA digestA with
      mimeType := "text/plain", modifiedUnixMs := -1, createdUnixMs := 0 }, allCallsSucceed),
    ({ oneByteEntry 1 "b" rootB digestB with
      mimeType := "", modifiedUnixMs := 1, createdUnixMs := 0 }, allCallsSucceed)]

/-- `out/a` with its record, and `out/b` without one. -/
def bothHeld : FileSystem :=
  (recordedA.mkfile ["out", "b"]).write 2 (.pwrite 0 [0x42])

theorem offer_arithmetic_fits_twoFiles :
    (∀ n ∈ [32, 2, 65536, 131072], Computes shortFileHash plainConfig ["out"] 65536 bothHeld
      (received twoFilesReceived) n ∧ n < 2 ^ 64) ∧
    ∃ st, offerLoop shortFileHash plainConfig ["out"] 65536 (.init bothHeld)
      (received twoFilesReceived) = .ok st ∧ st.totalBytes.toNat = 2 := by
  have hbitmaps : ∀ st x c bitmap, StartsWith shortFileHash plainConfig ["out"] 65536 bothHeld
      (received twoFilesReceived) st x c bitmap → bitmap.count = c.layout.count := by
    intro st x c bitmap hx
    obtain ⟨n, hn, hstart⟩ := startsWith_iff.1 hx
    have hlt : n < 2 := (List.getElem?_eq_some_iff.1 hn).1
    have hall : ∀ n < 2, ∀ r ∈ startOf shortFileHash plainConfig ["out"] 65536 bothHeld
        (received twoFilesReceived) n, r.2.2.count = r.2.1.layout.count := by
      decide +kernel
    exact hall n hlt _ hstart
  -- the second file is reached with the chunk of the first one counted
  have hsecond : ((startOf shortFileHash plainConfig ["out"] 65536 bothHeld
      (received twoFilesReceived) 1).any fun r => r.1.totalBytes.toNat = 1 ∧
        r.1.resumedBytes.toNat = 65536 ∧ r.2.2.setCount = 1) = true := by
    decide +kernel
  obtain ⟨⟨st, c, bitmap⟩, hstart, hcheck⟩ := (Option.any_eq_true _ _).1 hsecond
  obtain ⟨htotal, hresumed, hset⟩ : st.totalBytes.toNat = 1 ∧ st.resumedBytes.toNat = 65536 ∧
      bitmap.setCount = 1 := of_decide_eq_true hcheck
  have hx := startsWith_iff.2 ⟨1, rfl, hstart⟩
  have hfits := offer_arithmetic_fits (by decide +kernel) hbitmaps
  have hcomputes : ∀ n ∈ [32, 2, 65536, 131072], Computes shortFileHash plainConfig ["out"] 65536
      bothHeld (received twoFilesReceived) n := by
    simp only [List.forall_mem_cons, List.not_mem_nil, false_implies, implies_true, and_true]
    refine ⟨?_, ?_, ?_, ?_⟩
    · exact .hashBytes hx.reaches
        (show ChunkLayout.new 1 65536 = .ok oneByteLayout by decide +kernel)
    · have h := Computes.totalBytes hx
      rw [htotal] at h
      exact h
    · have h := Computes.setBytes hx
      rw [hset] at h
      exact h
    · have h := Computes.resumedBytes hx
      rw [hresumed, hset] at h
      exact h
  refine ⟨fun n hn => ⟨hcomputes n hn, hfits.1 n (hcomputes n hn)⟩, ?_⟩
  have hany : (offerLoop shortFileHash plainConfig ["out"] 65536 (.init bothHeld)
      (received twoFilesReceived)).toOption.any (fun _ => true) = true := by decide +kernel
  obtain ⟨st', hst', -⟩ := exists_ok_of_any hany
  exact ⟨st', hst', hfits.2 st' hst'⟩

end AetherLink
