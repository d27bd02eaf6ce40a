import AetherLink.Core.Recv.Offer
import AetherLink.Spec.TableHash

set_option autoImplicit false

/-! # What the offer loop does to the disk and believes of it

Two results about the loop before `Accept`. A refused offer has already created and resized the
files of the entries before the refused one. And a record is believed on the file as
`SinkFile::create` has just resized it, so the length check in `load` never sees that the file had
another length before. -/

namespace AetherLink

open Bytes Storage

variable {blake3 : Blake3} {config : Config} {outputDir : FilePath} {chunkSize : UInt32}

/-! ## Entries to run the loop on -/

/-- An entry for a file of one byte, with its digest and root. -/
def oneByteEntry (fileId : UInt64) (path : String) (root digest : Hash) : FileEntry :=
  { fileId := fileId, relativePath := path, sizeBytes := 1, rootHash := root.1,
    chunkHashes := digest.1 }

def plainConfig : Config :=
  { chunkSize := 65536, frameSize := 65536, streamCount := 1, maxStreams := 32,
    maxFileBytes := 1048576, checkpointBytes := 1, resume := true }

/-- Every call succeeds, on a filesystem without block reservation. -/
def allCallsSucceed : EntryIo :=
  { sink := .opened (.done false), recordReadable := true, readable := fun _ => true }

theorem toOption_eq_some {ε α : Type} {x : Except ε α} {a : α} :
    x.toOption = some a ↔ x = .ok a := by
  cases x <;> simp [Except.toOption]

/-- What passes a test is there. -/
theorem exists_ok_of_any {ε α : Type} {x : Except ε α} {check : α → Bool}
    (h : x.toOption.any check = true) : ∃ a, x = .ok a ∧ check a = true := by
  obtain ⟨a, ha, hcheck⟩ := (Option.any_eq_true _ _).1 h
  exact ⟨a, toOption_eq_some.1 ha, hcheck⟩

/-- A test of all entries of a map is one of all its files. -/
theorem check_of_lookup {files : Files} {check : (Σ _ : UInt64, FileState) → Bool}
    (h : files.entries.all check = true) {id : UInt64} {st : FileState}
    (hst : files.lookup id = some st) : check ⟨id, st⟩ = true :=
  List.all_eq_true.1 h _ (AList.mem_lookup_iff.1 hst)

/-! ## Refused offers -/

/-- The disk after accepting the entries `pre`, against the disk before. -/
structure OpenedAll (outputDir : FilePath) (disk : FileSystem) (pre : List (FileEntry × EntryIo))
    (st : OfferState) : Prop where
  sized : ∀ y ∈ pre, ∃ s, sanitizeRelativePath y.1.relativePath = .ok s ∧ s ∈ st.seenPaths ∧
    st.disk.contents (outputDir ++ pathComponents s)
      = some (sized ((disk.contents (outputDir ++ pathComponents s)).getD []) y.1.sizeBytes.toNat)
  offered : ∀ s ∈ st.seenPaths, ∃ y ∈ pre, sanitizeRelativePath y.1.relativePath = .ok s
  others : ∀ p, (∀ s ∈ st.seenPaths, p ≠ outputDir ++ pathComponents s) →
    st.disk.contents p = disk.contents p

theorem OpenedAll.step {disk : FileSystem} {pre : List (FileEntry × EntryIo)} {st st' : OfferState}
    {x : FileEntry × EntryIo} {c : Checked} (h : OpenedAll outputDir disk pre st)
    (hcheck : checkEntry blake3 config outputDir chunkSize st.seenPaths x.1 = .ok c)
    (hopen : openEntry blake3 config chunkSize st x.1 c x.2 = .ok st') :
    OpenedAll outputDir disk (pre ++ [x]) st' := by
  obtain ⟨hc, hfresh⟩ := checkEntry_ok hcheck
  obtain ⟨sink, bitmap, hsink, -, -, hseen⟩ := openEntry_ok hopen
  have hne : ∀ s ∈ st.seenPaths, outputDir ++ pathComponents s ≠ c.dest := by
    intro s hs heq
    rw [hc.dest_eq] at heq
    exact hfresh (dest_inj heq ▸ hs)
  refine ⟨?_, ?_, ?_⟩
  · intro y hy
    rcases List.mem_append.1 hy with hy | hy
    · obtain ⟨s, hs, hmem, hcont⟩ := h.sized y hy
      refine ⟨s, hs, hseen ▸ List.mem_cons_of_mem _ hmem, ?_⟩
      rw [hsink.contents_of_ne (hne s hmem), hcont]
    · obtain rfl := List.mem_singleton.1 hy
      refine ⟨c.safePath, hc.sanitized, hseen ▸ List.mem_cons_self, ?_⟩
      rw [← hc.dest_eq, hsink.contents, h.others c.dest]
      exact fun s hs heq => hne s hs heq.symm
  · intro s hs
    rw [hseen] at hs
    rcases List.mem_cons.1 hs with rfl | hs
    · exact ⟨x, by simp, hc.sanitized⟩
    · obtain ⟨y, hy, hys⟩ := h.offered s hs
      exact ⟨y, List.mem_append_left _ hy, hys⟩
  · intro p hp
    rw [hseen] at hp
    have hpc : p ≠ c.dest := by
      rw [hc.dest_eq]
      exact hp c.safePath List.mem_cons_self
    rw [hsink.contents_of_ne hpc]
    exact h.others p fun s hs => hp s (List.mem_cons_of_mem _ hs)

theorem openedAll_offerLoop {disk : FileSystem} {xs : List (FileEntry × EntryIo)} {st : OfferState}
    (h : offerLoop blake3 config outputDir chunkSize (.init disk) xs = .ok st) :
    OpenedAll outputDir disk xs st := by
  refine offerLoop_induct (P := OpenedAll outputDir disk) ?_ ?_ h
  · exact ⟨by simp, by simp [OfferState.init], fun p _ => rfl⟩
  · intro pre x s c s' hpre hcheck hopen
    exact hpre.step hcheck hopen

/-- The entry's destination is on the disk and already has the offered length, so that creating and
    sizing it changes nothing. -/
def AlreadySized (disk : FileSystem) (outputDir : FilePath) (entry : FileEntry) : Prop :=
  ∃ s content, sanitizeRelativePath entry.relativePath = .ok s ∧
    disk.contents (outputDir ++ pathComponents s) = some content ∧
    (entry.sizeBytes = 0 ∨ content.length = entry.sizeBytes.toNat)

theorem sized_eq_self_iff (c : List UInt8) (n : Nat) : sized c n = c ↔ n = 0 ∨ c.length = n := by
  unfold sized
  split
  · next h => simp [h]
  · next h =>
      constructor
      · intro heq
        exact Or.inr (by rw [← heq, length_setLen])
      · intro hn
        rcases hn with hn | hn
        · exact absurd hn h
        · rw [← hn, setLen_self]

theorem OpenedAll.unchanged_iff {disk : FileSystem} {pre : List (FileEntry × EntryIo)}
    {st : OfferState} (h : OpenedAll outputDir disk pre st) :
    (∀ p, outputDir <+: p → st.disk.contents p = disk.contents p) ↔
      ∀ y ∈ pre, AlreadySized disk outputDir y.1 := by
  constructor
  · intro hsame y hy
    obtain ⟨s, hs, -, hcont⟩ := h.sized y hy
    have hdisk := hsame _ (List.prefix_append outputDir (pathComponents s))
    rw [hcont] at hdisk
    obtain ⟨content, hcontent⟩ : ∃ content,
        disk.contents (outputDir ++ pathComponents s) = some content := ⟨_, hdisk.symm⟩
    rw [hcontent, Option.getD_some] at hdisk
    refine ⟨s, content, hs, hcontent, ?_⟩
    rcases (sized_eq_self_iff _ _).1 (Option.some.inj hdisk) with hz | hlen
    · exact Or.inl (UInt64.toNat_inj.1 hz)
    · exact Or.inr hlen
  · intro hall p _
    by_cases hp : ∃ s ∈ st.seenPaths, p = outputDir ++ pathComponents s
    · obtain ⟨s, hs, rfl⟩ := hp
      obtain ⟨y, hy, hys⟩ := h.offered s hs
      obtain ⟨s', hs', -, hcont⟩ := h.sized y hy
      obtain ⟨s'', content, hs'', hdisk, hlen⟩ := hall y hy
      obtain rfl : s' = s := Except.ok.inj (hs'.symm.trans hys)
      obtain rfl : s'' = s' := Except.ok.inj (hs''.symm.trans hs')
      rw [hcont, hdisk, Option.getD_some, (sized_eq_self_iff _ _).2]
      rcases hlen with hz | hlen
      · exact Or.inl (by rw [hz]; rfl)
      · exact Or.inr hlen
    · exact h.others p fun s hs heq => hp ⟨s, hs, heq⟩

/-- **When a refused offer leaves the files alone.** The loop has created and sized the files of
    the entries before the one it refuses, so nothing under the output directory changes exactly if
    each of these was already there with the offered length. -/
theorem rejected_offer_keeps_files_iff {disk : FileSystem} {entries : List (FileEntry × EntryIo)}
    {r : Refused}
    (h : offerLoop blake3 config outputDir chunkSize (.init disk) entries = .error r)
    (hcontents : ∀ doing, r.error ≠ .io doing) :
    ∃ pre x post, entries = pre ++ x :: post ∧
      (∃ st, offerLoop blake3 config outputDir chunkSize (.init disk) pre = .ok st ∧
        checkEntry blake3 config outputDir chunkSize st.seenPaths x.1
          = .error (r.abort, r.error)) ∧
      ((∀ p, outputDir <+: p → r.disk.contents p = disk.contents p) ↔
        ∀ y ∈ pre, AlreadySized disk outputDir y.1) := by
  obtain ⟨pre, x, post, st, rfl, hpre, hx⟩ := offerLoop_error h
  unfold offerEntry at hx
  split at hx
  · next abort e hcheck =>
      rw [Except.error.injEq] at hx
      subst hx
      exact ⟨pre, x, post, rfl, ⟨st, hpre, hcheck⟩, (openedAll_offerLoop hpre).unchanged_iff⟩
  · next c hcheck =>
      obtain ⟨doing, hio⟩ := openEntry_error (checkEntry_ok hcheck).1 hx
      exact absurd hio (hcontents doing)

/-- A good file, then a path that leaves the output directory. -/
def traversalOffer : List (FileEntry × EntryIo) :=
  [(oneByteEntry 0 "a" rootA digestA, allCallsSucceed),
    (oneByteEntry 1 "../b" rootB digestB, allCallsSucceed)]

/-- The traversal is what the offer is refused for, and `out/a` is there. -/
def refusedTraversal : Except Refused OfferState → Bool
  | .error r =>
      r.error = .wire (.unsafePath "../b" "contains a parent-directory traversal") ∧
        r.disk.contents ["out", "a"] = some [0]
  | .ok _ => false

theorem offerLoop_traversalOffer :
    ∃ r, offerLoop shortFileHash plainConfig ["out"] 65536 (.init .empty) traversalOffer = .error r ∧
      (∀ doing, r.error ≠ .io doing) ∧ r.disk.contents ["out", "a"] = some [0] := by
  have hrun : refusedTraversal
      (offerLoop shortFileHash plainConfig ["out"] 65536 (.init .empty) traversalOffer) = true := by
    decide +kernel
  cases hr : offerLoop shortFileHash plainConfig ["out"] 65536 (.init .empty) traversalOffer with
  | error r =>
      rw [hr] at hrun
      obtain ⟨herr, hcont⟩ := of_decide_eq_true hrun
      exact ⟨r, rfl, fun doing => by rw [herr]; simp, hcont⟩
  | ok st =>
      rw [hr] at hrun
      cases hrun

/-- `out/a` has changed, and it was not there with its length. -/
theorem rejected_offer_keeps_files_iff_traversalOffer :
    ∃ r, offerLoop shortFileHash plainConfig ["out"] 65536 (.init .empty) traversalOffer = .error r ∧
      ∃ pre x post, traversalOffer = pre ++ x :: post ∧
        (∃ st, offerLoop shortFileHash plainConfig ["out"] 65536 (.init .empty) pre = .ok st ∧
          checkEntry shortFileHash plainConfig ["out"] 65536 st.seenPaths x.1
            = .error (r.abort, r.error)) ∧
        r.disk.contents ["out", "a"] = some [0] ∧ ∃ y ∈ pre, ¬ AlreadySized .empty ["out"] y.1 := by
  obtain ⟨r, hr, herr, hcont⟩ := offerLoop_traversalOffer
  obtain ⟨pre, x, post, hsplit, hrefused, hiff⟩ := rejected_offer_keeps_files_iff hr herr
  refine ⟨r, hr, pre, x, post, hsplit, hrefused, hcont, ?_⟩
  by_contra hnone
  push Not at hnone
  have hsame := hiff.2 hnone ["out", "a"] ⟨["a"], rfl⟩
  rw [hcont] at hsame
  exact absurd hsame (by decide)

/-- The refused offer has left a file of one zero byte at `out/a`. -/
theorem rejected_offer_creates_files :
    ¬ ∀ (blake3 : Blake3) (config : Config) (outputDir : FilePath) (chunkSize : UInt32)
      (disk : FileSystem) (entries : List (FileEntry × EntryIo)) (r : Refused),
      offerLoop blake3 config outputDir chunkSize (.init disk) entries = .error r →
      (∀ doing, r.error ≠ .io doing) →
      ∀ p, outputDir <+: p → r.disk.contents p = disk.contents p := by
  intro hclaim
  obtain ⟨r, hr, herr, hcont⟩ := offerLoop_traversalOffer
  have hsame := hclaim _ _ _ _ _ _ r hr herr ["out", "a"] ⟨["a"], rfl⟩
  rw [hcont] at hsame
  exact absurd hsame (by decide)

/-! ## Records on a file that has changed -/

/-- What `record → change → next session` leaves: a record written for `key` while every set bit was
    true of the staging file, untouched since, beside a staging file that is gone or no longer has
    the recorded length. -/
structure StaleRecord (blake3 : Blake3) (T : Set Hash) (dest : FilePath) (key : StateKey)
    (layout : ChunkLayout) (hashes : List Hash) (content : List UInt8) (recorded : ChunkBitmap)
    (disk : FileSystem) : Prop where
  layout_ok : ChunkLayout.new key.fileSize key.chunkSize = .ok layout
  root_eq : rootFromChunkHashes blake3 hashes = key.rootHash
  root_mem : key.rootHash ∈ T
  hashes_mem : ∀ h ∈ hashes, h ∈ T
  wf : recorded.Wf
  count_lt : recorded.count < 2 ^ 64
  truthful : Truthful blake3 layout hashes content recorded
  persisted : ∃ before after, before.contents dest = some content ∧
    Resume.persist blake3 before dest key recorded = some after ∧
    disk.contents (statePath dest) = after.contents (statePath dest)
  changed : ∀ c, disk.contents dest = some c → c.length ≠ key.fileSize.toNat

/-- Where the initial bitmap comes from. -/
theorem initialBitmap_cases {resume : Bool} {fs : FileSystem} {preexisting : Bool} {sink : SinkFile}
    {c : Checked} {io : EntryIo} {b : ChunkBitmap}
    (h : initialBitmap blake3 resume fs preexisting sink c io = .ok b) :
    (resume = true ∧ io.recordReadable = true ∧
        Resume.load blake3 fs c.dest c.key = some b) ∨
      ((resume = true → io.recordReadable = true →
          Resume.load blake3 fs c.dest c.key = none) ∧
        (b = ChunkBitmap.new c.layout.count ∨
          Resume.rebuildByVerification blake3 fs sink c.chunkHashes io.readable = .ok b)) := by
  unfold initialBitmap at h
  split at h
  · next hres =>
      refine Or.inr ⟨fun hr => ?_, Or.inl (Except.ok.inj h).symm⟩
      simp [hr] at hres
  · next hres =>
      have hres' : resume = true := by simpa using hres
      split at h
      · next recorded hload =>
          split at hload
          · next hread =>
              obtain rfl := Except.ok.inj h
              exact Or.inl ⟨hres', hread, hload⟩
          · cases hload
      · next hload =>
          refine Or.inr ⟨fun _ hread => by rwa [if_pos hread] at hload, ?_⟩
          split at h
          · exact Or.inr h
          · exact Or.inl (Except.ok.inj h).symm

/-- The bitmap a changed file starts with: the recorded one where the record is believed, and a true
    one otherwise. A recorded bit makes `size` positive, so the file has the recorded length. -/
theorem StaleRecord.initialBitmap {T : Set Hash} {dest : FilePath} {key : StateKey}
    {layout : ChunkLayout} {hashes : List Hash} {content : List UInt8} {recorded : ChunkBitmap}
    {disk disk' : FileSystem}
    (hstale : StaleRecord blake3 T dest key layout hashes content recorded disk)
    (hname : Named dest) {sink : SinkFile}
    (hsink : sink.Created disk dest key.fileSize key.chunkSize disk') (b : ChunkBitmap) :
    (Resume.load blake3 disk' dest key = some b → b = recorded) ∧
      (Resume.load blake3 disk' dest key = none → ∀ i, recorded.has i = false) := by
  obtain ⟨before, after, -, hpersist, hsame⟩ := hstale.persisted
  have hrec : disk'.contents (statePath dest) = some (Resume.record blake3 key recorded) := by
    rw [hsink.contents_of_ne (statePath_ne_self hname.1), hsame,
      Resume.contents_persist hname.2 hpersist]
  have hiff : ∀ b', Resume.load blake3 disk' dest key = some b' ↔ key = key ∧ b' = recorded ∧
      ∃ c, disk'.contents dest = some c ∧ c.length = key.fileSize.toNat :=
    fun _ => Resume.load_of_record hstale.wf hstale.count_lt hrec
  refine ⟨fun hload => ((hiff b).1 hload).2.1, fun hnone i => ?_⟩
  by_contra hset
  rw [Bool.not_eq_false] at hset
  have hlt := layout.start_lt (hstale.truthful i hset).lt_count
  rw [(ChunkLayout.new_ok hstale.layout_ok).1] at hlt
  have hload := (hiff recorded).2 ⟨rfl, rfl, _, hsink.contents, by
    rw [sized, if_neg (by omega), length_setLen]⟩
  rw [hnone] at hload
  cases hload

/-- **When a record about a changed file is believed rightly.** `load` runs after `SinkFile::create`
    has given the staging file the recorded length again, so the record is believed whatever the
    length was; the bits it sets are true exactly if, in every recorded chunk, the changed file has
    the recorded bytes, zero past its end. -/
theorem resumed_bits_truthful_iff {T : Set Hash} (hcf : CollisionFreeOn blake3 T)
    {dest : FilePath} {key : StateKey} {layout : ChunkLayout} {hashes : List Hash}
    {content : List UInt8} {recorded : ChunkBitmap} {st st' : OfferState}
    {x : FileEntry × EntryIo} {c : Checked} {fs : FileState}
    (hstale : StaleRecord blake3 T dest key layout hashes content recorded st.disk)
    (hresume : config.resume = true)
    (hcheck : checkEntry blake3 config outputDir chunkSize st.seenPaths x.1 = .ok c)
    (hdest : c.dest = dest) (hkey : c.key = key)
    (hopen : openEntry blake3 config chunkSize st x.1 c x.2 = .ok st')
    (hfs : st'.files.lookup x.1.fileId = some fs) :
    Truthful blake3 fs.layout fs.chunkHashes (st'.disk.data fs.sink.ino) fs.bitmap ↔
      (x.2.recordReadable = true → ∀ i, recorded.has i = true → ∀ k, k < layout.len i →
        byteAt ((st.disk.contents dest).getD []) (layout.start i + k)
          = byteAt content (layout.start i + k)) := by
  obtain ⟨hc, -⟩ := checkEntry_ok hcheck
  obtain ⟨sink, bitmap, hsink, hbitmap, hfiles, -⟩ := openEntry_ok hopen
  rw [hfiles, AList.lookup_insert, Option.some.injEq] at hfs
  subst hfs hdest
  -- the key determines the layout and, through the root, the chunk hashes
  obtain rfl : key = ⟨rootFromChunkHashes blake3 c.chunkHashes, x.1.sizeBytes, chunkSize⟩ :=
    hkey.symm.trans hc.key_eq
  have hlay : layout = c.layout :=
    Except.ok.inj (hstale.layout_ok.symm.trans hc.layout_ok)
  have hhash : hashes = c.chunkHashes :=
    rootFromChunkHashes_inj hcf (hstale.root_eq ▸ hstale.root_mem) hstale.root_eq
  have hsinkl : sink.layout = c.layout :=
    Except.ok.inj (hsink.layout_ok.symm.trans hc.layout_ok)
  subst hlay hhash
  have hinit := hstale.initialBitmap hc.named hsink bitmap
  rw [← hkey] at hinit
  rcases initialBitmap_cases hbitmap with ⟨-, hread, hload⟩ | ⟨hnone, htrue⟩
  · obtain rfl := hinit.1 hload
    -- the record is believed: compare the resized file with the recorded one, bit by bit
    have hbit : ∀ i, bitmap.has i = true →
        (ChunkHeld blake3 c.layout c.chunkHashes (st'.disk.data sink.ino) i ↔
          ∀ k, k < c.layout.len i →
            byteAt ((st.disk.contents c.dest).getD []) (c.layout.start i + k)
              = byteAt content (c.layout.start i + k)) := by
      intro i hi
      have hheld := hstale.truthful i hi
      have hlt := c.layout.start_lt hheld.lt_count
      rw [hc.layout_fileSize] at hlt
      rw [hsink.data, sized, if_neg (by omega)]
      exact held_setLen_iff hcf hstale.hashes_mem hheld (Nat.le_of_eq hc.layout_fileSize)
    constructor
    · intro h _ i hi
      exact (hbit i hi).1 (h i hi)
    · intro h i hi
      exact (hbit i hi).2 (h hread i hi)
  · refine iff_of_true ?_ ?_
    · rcases htrue with hnew | hrebuilt
      · simp only [hnew]
        exact Resume.truthful_new _ _ _ _
      · have htruthful := (Resume.rebuildByVerification_ok hrebuilt).truthful
        simpa only [hsinkl, Checked.fileState] using htruthful
    · intro hread i hi
      rw [hinit.2 (hnone hresume hread) i] at hi
      cases hi

/-! ### The one-byte file -/

def oneByteLayout : ChunkLayout :=
  { fileSize := 1, chunkSize := 65536, count := 1, fileSize_lt := by decide, min_le := by decide,
    le_max := by decide, powerOfTwo := by decide, count_eq := by decide }

/-- The bitmap of a file of one chunk that is there. -/
def oneChunkHeld : ChunkBitmap :=
  { bits := [1], count := 1, setCount := 1 }

theorem wf_oneChunkHeld : oneChunkHeld.Wf :=
  (ChunkBitmap.fromBytes_ok (show ChunkBitmap.fromBytes [1] 1 = .ok oneChunkHeld from rfl)).2.2

def keyA : StateKey :=
  { rootHash := rootA, fileSize := 1, chunkSize := 65536 }

/-- `out/a` received: the one byte `A`. -/
def stagedA : FileSystem :=
  ((Disk.empty.mkdir ["out"]).mkfile ["out", "a"]).write 0 (.pwrite 0 [0x41])

def recordedA : FileSystem :=
  (Resume.persist shortFileHash stagedA ["out", "a"] keyA oneChunkHeld).get (by decide +kernel)

/-- `out/a` cut to nothing behind the record's back. -/
def truncatedA : FileSystem :=
  recordedA.write 0 (.setLen 0)

theorem truthful_oneChunkHeld :
    Truthful shortFileHash oneByteLayout [digestA] [0x41] oneChunkHeld := by
  intro i hi
  have hlt : i < 1 := wf_oneChunkHeld.lt_count hi
  obtain rfl : i = 0 := by omega
  decide +kernel

theorem staleRecord_truncatedA :
    StaleRecord shortFileHash (listedDigests shortFileDigests) ["out", "a"] keyA oneByteLayout
      [digestA] [0x41] oneChunkHeld truncatedA where
  layout_ok := by decide +kernel
  root_eq := by decide +kernel
  root_mem := show rootA ∈ shortFileDigests.map Prod.snd by decide
  hashes_mem := by
    intro h hh
    obtain rfl := List.mem_singleton.1 hh
    exact show digestA ∈ shortFileDigests.map Prod.snd by decide
  wf := wf_oneChunkHeld
  count_lt := by decide
  truthful := truthful_oneChunkHeld
  persisted := ⟨stagedA, recordedA, by decide +kernel, (Option.some_get _).symm, by decide +kernel⟩
  changed := by
    intro c hc
    have hempty : truncatedA.contents ["out", "a"] = some [] := by decide +kernel
    obtain rfl := Option.some.inj (hempty.symm.trans hc)
    decide

/-- The next session over the truncated file: the entry is accepted, its bit is set, and the file
    holds a zero byte. -/
theorem openEntry_truncatedA :
    ∃ c st' fs,
      checkEntry shortFileHash plainConfig ["out"] 65536 [] (oneByteEntry 0 "a" rootA digestA)
        = .ok c ∧
      c.dest = ["out", "a"] ∧ c.key = keyA ∧
      openEntry shortFileHash plainConfig 65536 (.init truncatedA)
        (oneByteEntry 0 "a" rootA digestA) c allCallsSucceed = .ok st' ∧
      st'.files.lookup 0 = some fs ∧ fs.bitmap.has 0 = true ∧
      ¬ ChunkHeld shortFileHash fs.layout fs.chunkHashes (st'.disk.data fs.sink.ino) 0 := by
  have hrun : ((checkEntry shortFileHash plainConfig ["out"] 65536 []
        (oneByteEntry 0 "a" rootA digestA)).toOption.any fun c =>
      (openEntry shortFileHash plainConfig 65536 (.init truncatedA) (oneByteEntry 0 "a" rootA digestA)
          c allCallsSucceed).toOption.any fun st' =>
        (st'.files.lookup 0).any fun fs => decide (c.dest = ["out", "a"] ∧ c.key = keyA ∧
          fs.bitmap.has 0 = true ∧
          ¬ ChunkHeld shortFileHash fs.layout fs.chunkHashes (st'.disk.data fs.sink.ino) 0))
      = true := by
    decide +kernel
  obtain ⟨c, hc, hrun⟩ := exists_ok_of_any hrun
  obtain ⟨st', hst', hrun⟩ := exists_ok_of_any hrun
  obtain ⟨fs, hfs, hrun⟩ := (Option.any_eq_true _ _).1 hrun
  obtain ⟨hdest, hkey, hbit, hheld⟩ := of_decide_eq_true hrun
  exact ⟨c, st', fs, hc, hdest, hkey, hst', hfs, hbit, hheld⟩

/-- The byte that the recorded bit is for is not there, and the bit is not true in the next session. -/
theorem resumed_bits_truthful_iff_truncatedA :
    ∃ (st' : OfferState) (fs : FileState), st'.files.lookup 0 = some fs ∧
      ¬ Truthful shortFileHash fs.layout fs.chunkHashes (st'.disk.data fs.sink.ino) fs.bitmap := by
  obtain ⟨c, st', fs, hc, hdest, hkey, hopen, hfs, -, -⟩ := openEntry_truncatedA
  have hstale : StaleRecord shortFileHash (listedDigests shortFileDigests) ["out", "a"] keyA
      oneByteLayout [digestA] [0x41] oneChunkHeld (OfferState.init truncatedA).disk :=
    staleRecord_truncatedA
  have hiff := resumed_bits_truthful_iff
    (x := (oneByteEntry 0 "a" rootA digestA, allCallsSucceed))
    collisionFreeOn_shortFileHash hstale rfl hc hdest hkey hopen hfs
  refine ⟨st', fs, hfs, fun htrue => ?_⟩
  have hbyte := hiff.1 htrue rfl 0 (by decide) 0 (by decide)
  exact absurd hbyte (by decide +kernel)

/-- After a truncation to nothing, the next session reports chunk 0 as held while the file holds a
    zero byte there. -/
theorem stale_record_believed :
    ¬ ∀ (blake3 : Blake3) (T : Set Hash) (config : Config) (outputDir : FilePath)
      (chunkSize : UInt32) (dest : FilePath) (key : StateKey) (layout : ChunkLayout)
      (hashes : List Hash) (content : List UInt8) (recorded : ChunkBitmap) (st st' : OfferState)
      (x : FileEntry × EntryIo) (c : Checked) (fs : FileState),
      CollisionFreeOn blake3 T →
      StaleRecord blake3 T dest key layout hashes content recorded st.disk →
      config.resume = true →
      checkEntry blake3 config outputDir chunkSize st.seenPaths x.1 = .ok c →
      c.dest = dest → c.key = key →
      openEntry blake3 config chunkSize st x.1 c x.2 = .ok st' →
      st'.files.lookup x.1.fileId = some fs →
      Truthful blake3 fs.layout fs.chunkHashes (st'.disk.data fs.sink.ino) fs.bitmap := by
  intro hclaim
  obtain ⟨c, st', fs, hc, hdest, hkey, hopen, hfs, hbit, hheld⟩ := openEntry_truncatedA
  exact hheld (hclaim _ _ _ _ _ _ _ _ _ _ _ (.init truncatedA) st'
    (oneByteEntry 0 "a" rootA digestA, allCallsSucceed) c fs collisionFreeOn_shortFileHash
    staleRecord_truncatedA rfl hc hdest hkey hopen hfs 0 hbit)

end AetherLink
