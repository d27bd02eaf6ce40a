import AetherLink.Core.Resume
import AetherLink.Proto.Manifest
import Mathlib.Data.List.AList

set_option autoImplicit false

/-! # The receiver's offer loop

`run` treats the offer as hostile input: entry by entry it checks the contents (`checkEntry`), then
opens the staging file and decides what it already holds (`openEntry`). Checking and opening
alternate in one loop, so an entry is refused on the disk its predecessors have left. -/

namespace AetherLink

open Storage

/-! ## State -/

/-- Per-file receive state, shared by every stream worker. -/
structure FileState where
  sink : SinkFile
  layout : ChunkLayout
  chunkHashes : List Hash
  bitmap : ChunkBitmap
  /-- Identity this file's resume record must match. -/
  key : StateKey
  /-- Bytes written since the last checkpoint. -/
  sinceCheckpoint : UInt64
  /-- Whether the checkpoint lock is held. -/
  checkpointing : Bool
  deriving DecidableEq

/-- `HashMap<u64, Arc<FileState>>`. -/
abbrev Files : Type := AList fun _ : UInt64 => FileState

/-- The locals of the offer loop. -/
structure OfferState where
  disk : FileSystem
  files : Files
  accepted : List UInt64
  progress : List FileProgress
  seenPaths : List String
  totalBytes : UInt64
  resumedBytes : UInt64

def OfferState.init (disk : FileSystem) : OfferState :=
  { disk := disk, files := ∅, accepted := [], progress := [], seenPaths := [], totalBytes := 0,
    resumedBytes := 0 }

/-- How `run` ends when it ends before `Accept`: the disk it leaves, whether it calls `abort`, and its
    error, which has the words of the `Abort`. -/
structure Refused where
  disk : FileSystem
  abort : Bool
  error : Error

/-- What is known of an entry whose contents are accepted. -/
structure Checked where
  safePath : String
  dest : FilePath
  layout : ChunkLayout
  chunkHashes : List Hash
  key : StateKey

/-! ## Checking an entry -/

/-- The first 32 bytes as a digest. -/
def hashOfBytes (bs : List UInt8) : Hash :=
  ⟨Bytes.setLen bs 32, Bytes.length_setLen bs 32⟩

/-- `chunks_exact(32)`. -/
def cutHashes : Nat → List UInt8 → List Hash
  | 0, _ => []
  | n + 1, bs => hashOfBytes bs :: cutHashes n (bs.drop 32)

def splitHashes (concatenated : List UInt8) (count : Nat) : Except Error (List Hash) :=
  if concatenated.length ≠ count * 32 then
    .error (.protocol ("manifest carries " ++ toString concatenated.length ++
      " hash bytes, expected " ++ toString (count * 32) ++ " for " ++ toString count ++ " chunks"))
  else .ok (cutHashes count concatenated)

/-- The content checks on one entry, in the source's order. A refusal says whether `abort` is called;
    the reason it is called with is what the error says (`Error.reason`). -/
def checkEntry (blake3 : Blake3) (config : Config) (outputDir : FilePath) (chunkSize : UInt32)
    (seenPaths : List String) (entry : FileEntry) : Except (Bool × Error) Checked :=
  match sanitizeRelativePath entry.relativePath with
  | .error e => .error (true, .wire e)
  | .ok safePath =>
      if safePath ∈ seenPaths then
        .error (true, .protocol ("manifest resolves two entries to " ++ safePath))
      else match ChunkLayout.new entry.sizeBytes chunkSize with
        | .error e => .error (false, .wire e)
        | .ok layout =>
            if config.maxFileBytes < entry.sizeBytes then
              .error (true, .protocol (safePath ++ " is " ++ toString entry.sizeBytes.toNat ++
                " bytes, above the accepted maximum"))
            else match splitHashes entry.chunkHashes layout.count with
              | .error e => .error (false, e)
              | .ok chunkHashes =>
                  let computed := rootFromChunkHashes blake3 chunkHashes
                  if entry.rootHash ≠ computed.1 then
                    .error (true, .protocol
                      ("root hash does not match the chunk hashes for " ++ safePath))
                  else .ok {
                    safePath := safePath
                    dest := outputDir ++ pathComponents safePath
                    layout := layout
                    chunkHashes := chunkHashes
                    key := {
                      rootHash := computed
                      fileSize := entry.sizeBytes
                      chunkSize := chunkSize } }

/-! ## Opening an entry -/

/-- How the system calls made for one entry go: those of `SinkFile::create`, the read of the record,
    and the reads of the rebuilding pass. -/
structure EntryIo where
  sink : SinkIo
  recordReadable : Bool
  readable : Nat → Bool

/-- The bitmap a file starts the session with. `fs` is the disk with the staging file already
    created; `preexisting` says whether it was there before. -/
def initialBitmap (blake3 : Blake3) (resume : Bool) (fs : FileSystem) (preexisting : Bool)
    (sink : SinkFile) (c : Checked) (io : EntryIo) : Except Error ChunkBitmap :=
  if !resume then .ok (ChunkBitmap.new c.layout.count)
  else match (if io.recordReadable then Resume.load blake3 fs c.dest c.key else none) with
    | some recorded => .ok recorded
    | none =>
        if preexisting then Resume.rebuildByVerification blake3 fs sink c.chunkHashes io.readable
        else .ok (ChunkBitmap.new c.layout.count)

/-- The state a checked file starts the session with. -/
def Checked.fileState (c : Checked) (sink : SinkFile) (bitmap : ChunkBitmap) : FileState :=
  { sink := sink
    layout := c.layout
    chunkHashes := c.chunkHashes
    bitmap := bitmap
    key := c.key
    sinceCheckpoint := 0
    checkpointing := false }

/-- Open the staging file of a checked entry and enter it into the session. An id that is already in
    the map has its file state replaced, as `HashMap::insert` does. -/
def openEntry (blake3 : Blake3) (config : Config) (chunkSize : UInt32) (st : OfferState)
    (entry : FileEntry) (c : Checked) (io : EntryIo) : Except Refused OfferState :=
  let preexisting := st.disk.pathExists c.dest
  match SinkFile.create st.disk c.dest entry.sizeBytes chunkSize io.sink with
  | (fs, .error e) => .error { disk := fs, abort := false, error := e }
  | (fs, .ok sink) =>
      match initialBitmap blake3 config.resume fs preexisting sink c io with
      | .error e => .error { disk := fs, abort := false, error := e }
      | .ok bitmap => .ok {
          disk := fs
          files := st.files.insert entry.fileId (c.fileState sink bitmap)
          accepted := st.accepted ++ [entry.fileId]
          progress := st.progress ++ [{ fileId := entry.fileId, haveBitmap := bitmap.asBytes }]
          seenPaths := c.safePath :: st.seenPaths
          totalBytes := st.totalBytes + entry.sizeBytes
          resumedBytes := st.resumedBytes + UInt64.ofNat bitmap.setCount * chunkSize.toUInt64 }

/-- One turn of the offer loop. -/
def offerEntry (blake3 : Blake3) (config : Config) (outputDir : FilePath) (chunkSize : UInt32)
    (st : OfferState) (x : FileEntry × EntryIo) : Except Refused OfferState :=
  match checkEntry blake3 config outputDir chunkSize st.seenPaths x.1 with
  | .error (abort, e) => .error { disk := st.disk, abort := abort, error := e }
  | .ok c => openEntry blake3 config chunkSize st x.1 c x.2

/-- The offer loop, over the entries and the outcomes of their system calls. -/
def offerLoop (blake3 : Blake3) (config : Config) (outputDir : FilePath) (chunkSize : UInt32)
    (st : OfferState) (entries : List (FileEntry × EntryIo)) : Except Refused OfferState :=
  entries.foldlM (offerEntry blake3 config outputDir chunkSize) st

/-! ## What the checks establish -/

theorem length_cutHashes (n : Nat) (bs : List UInt8) : (cutHashes n bs).length = n := by
  induction n generalizing bs with
  | zero => rfl
  | succ n ih => rw [cutHashes, List.length_cons, ih]

theorem splitHashes_length {bs : List UInt8} {n : Nat} {hs : List Hash}
    (h : splitHashes bs n = .ok hs) : bs.length = n * 32 := by
  unfold splitHashes at h
  split at h
  · cases h
  · next hlen => exact not_not.1 hlen

theorem splitHashes_ok {bs : List UInt8} {n : Nat} {hs : List Hash}
    (h : splitHashes bs n = .ok hs) : hs.length = n := by
  unfold splitHashes at h
  split at h
  · cases h
  · exact Except.ok.inj h ▸ length_cutHashes n bs

theorem cutHashes_concatHashes (hs : List Hash) : cutHashes hs.length (concatHashes hs) = hs := by
  induction hs with
  | nil => rfl
  | cons h hs ih =>
      have hhead : hashOfBytes (h.1 ++ concatHashes hs) = h := by
        refine Subtype.ext ?_
        show (h.1 ++ concatHashes hs).take 32 ++
          List.replicate (32 - (h.1 ++ concatHashes hs).length) 0 = h.1
        have hlen : 32 - (h.1 ++ concatHashes hs).length = 0 := by
          rw [List.length_append, h.2]
          omega
        rw [List.take_left' h.2, hlen, List.replicate_zero, List.append_nil]
      rw [concatHashes_cons, List.length_cons, cutHashes, hhead, List.drop_left' h.2, ih]

/-- **Digests that are put together are taken apart again.** -/
theorem splitHashes_concatHashes (hs : List Hash) :
    splitHashes (concatHashes hs) hs.length = .ok hs := by
  rw [splitHashes, if_neg, cutHashes_concatHashes]
  rw [length_concatHashes, Nat.mul_comm]
  exact not_not.2 rfl

/-- What `checkEntry` has found out about an entry it accepts. -/
structure Checked.For (blake3 : Blake3) (config : Config) (outputDir : FilePath)
    (chunkSize : UInt32) (entry : FileEntry) (c : Checked) : Prop where
  sanitized : sanitizeRelativePath entry.relativePath = .ok c.safePath
  dest_eq : c.dest = outputDir ++ pathComponents c.safePath
  layout_ok : ChunkLayout.new entry.sizeBytes chunkSize = .ok c.layout
  size_le : entry.sizeBytes ≤ config.maxFileBytes
  hashes_ok : splitHashes entry.chunkHashes c.layout.count = .ok c.chunkHashes
  root_eq : entry.rootHash = (rootFromChunkHashes blake3 c.chunkHashes).1
  key_eq : c.key =
    { rootHash := rootFromChunkHashes blake3 c.chunkHashes, fileSize := entry.sizeBytes,
      chunkSize := chunkSize }

theorem checkEntry_ok {blake3 : Blake3} {config : Config} {outputDir : FilePath}
    {chunkSize : UInt32} {seen : List String} {entry : FileEntry} {c : Checked}
    (h : checkEntry blake3 config outputDir chunkSize seen entry = .ok c) :
    c.For blake3 config outputDir chunkSize entry ∧ c.safePath ∉ seen := by
  unfold checkEntry at h
  split at h
  · cases h
  · next safePath hsafe =>
      split at h
      · cases h
      · next hseen =>
          split at h
          · cases h
          · next layout hlayout =>
              split at h
              · cases h
              · next hsize =>
                  split at h
                  · cases h
                  · next hs hhs =>
                      simp only at h
                      split at h
                      · cases h
                      · next hroot =>
                          rw [Except.ok.injEq] at h
                          subst h
                          exact ⟨⟨hsafe, rfl, hlayout, UInt64.not_lt.1 hsize, hhs,
                            not_not.1 hroot, rfl⟩, hseen⟩

/-- A destination is named by the last component of a sanitized path. -/
theorem named_dest (outputDir : FilePath) {raw safePath : String}
    (h : sanitizeRelativePath raw = .ok safePath) : Named (outputDir ++ pathComponents safePath) := by
  have hne := pathComponents_ne_nil safePath
  have hlast : (outputDir ++ pathComponents safePath).getLast?
      = (pathComponents safePath).getLast? := by
    rw [List.getLast?_append_of_ne_nil _ hne]
  refine ⟨by simp [hne], ?_⟩
  rw [fileName, List.getLastD_eq_getLast?, hlast, List.getLast?_eq_some_getLast hne,
    Option.getD_some]
  exact ne_empty_of_mem_pathComponents h _ (List.getLast_mem hne)

namespace Checked.For

variable {blake3 : Blake3} {config : Config} {outputDir : FilePath} {chunkSize : UInt32}
  {entry : FileEntry} {c : Checked}

theorem named (h : c.For blake3 config outputDir chunkSize entry) : Named c.dest := by
  rw [h.dest_eq]
  exact named_dest outputDir h.sanitized

theorem layout_fileSize (h : c.For blake3 config outputDir chunkSize entry) :
    c.layout.fileSize = entry.sizeBytes.toNat :=
  (ChunkLayout.new_ok h.layout_ok).1

theorem layout_chunkSize (h : c.For blake3 config outputDir chunkSize entry) :
    c.layout.chunkSize = chunkSize.toNat :=
  (ChunkLayout.new_ok h.layout_ok).2

/-- An entry carries 32 bytes for every chunk, and no chunk is longer than the largest. -/
theorem chunks_le_hashes (h : c.For blake3 config outputDir chunkSize entry) :
    c.layout.count * c.layout.chunkSize * 32 ≤ entry.chunkHashes.length * MAX_CHUNK_SIZE := by
  rw [splitHashes_length h.hashes_ok, Nat.mul_right_comm]
  exact Nat.mul_le_mul_left _ c.layout.le_max

/-- **The digests bound the size.** -/
theorem size_le_hashes (h : c.For blake3 config outputDir chunkSize entry) :
    entry.sizeBytes.toNat * 32 ≤ entry.chunkHashes.length * MAX_CHUNK_SIZE := by
  rw [← h.layout_fileSize]
  exact (Nat.mul_le_mul_right 32 c.layout.fileSize_le).trans h.chunks_le_hashes

end Checked.For

/-- Different safe paths are different destinations. -/
theorem dest_inj {outputDir : FilePath} {s s' : String}
    (h : outputDir ++ pathComponents s = outputDir ++ pathComponents s') : s = s' :=
  pathComponents_inj (List.append_cancel_left h)

/-- An entry is entered into the session once its sink and its initial bitmap are there. -/
theorem openEntry_eq_ok {blake3 : Blake3} {config : Config} {chunkSize : UInt32}
    {st st' : OfferState} {entry : FileEntry} {c : Checked} {io : EntryIo}
    (h : openEntry blake3 config chunkSize st entry c io = .ok st') :
    ∃ fs sink bitmap,
      SinkFile.create st.disk c.dest entry.sizeBytes chunkSize io.sink = (fs, .ok sink) ∧
      initialBitmap blake3 config.resume fs (st.disk.pathExists c.dest) sink c io = .ok bitmap ∧
      st' = {
        disk := fs
        files := st.files.insert entry.fileId (c.fileState sink bitmap)
        accepted := st.accepted ++ [entry.fileId]
        progress := st.progress ++ [{ fileId := entry.fileId, haveBitmap := bitmap.asBytes }]
        seenPaths := c.safePath :: st.seenPaths
        totalBytes := st.totalBytes + entry.sizeBytes
        resumedBytes := st.resumedBytes + UInt64.ofNat bitmap.setCount * chunkSize.toUInt64 } := by
  unfold openEntry at h
  simp only at h
  split at h
  · cases h
  · next fs sink hcreate =>
      split at h
      · cases h
      · next bitmap hbitmap =>
          rw [Except.ok.injEq] at h
          exact ⟨fs, sink, bitmap, hcreate, hbitmap, h.symm⟩

/-- **What an accepted entry adds**: a created sink, and an initial bitmap decided on the disk that
    sink left. -/
theorem openEntry_ok {blake3 : Blake3} {config : Config} {chunkSize : UInt32} {st st' : OfferState}
    {entry : FileEntry} {c : Checked} {io : EntryIo}
    (h : openEntry blake3 config chunkSize st entry c io = .ok st') :
    ∃ sink bitmap,
      sink.Created st.disk c.dest entry.sizeBytes chunkSize st'.disk ∧
      initialBitmap blake3 config.resume st'.disk (st.disk.pathExists c.dest) sink c io
        = .ok bitmap ∧
      st'.files = st.files.insert entry.fileId (c.fileState sink bitmap) ∧
      st'.seenPaths = c.safePath :: st.seenPaths := by
  obtain ⟨fs, sink, bitmap, hcreate, hbitmap, rfl⟩ := openEntry_eq_ok h
  exact ⟨sink, bitmap, SinkFile.create_ok hcreate, hbitmap, rfl, rfl⟩

/-- What an accepted entry adds to the answer and to the totals, with the bitmap it starts with. -/
theorem openEntry_answer {blake3 : Blake3} {config : Config} {chunkSize : UInt32}
    {st st' : OfferState} {entry : FileEntry} {c : Checked} {io : EntryIo}
    (h : openEntry blake3 config chunkSize st entry c io = .ok st') :
    ∃ sink bitmap, st'.files = st.files.insert entry.fileId (c.fileState sink bitmap) ∧
      st'.accepted = st.accepted ++ [entry.fileId] ∧
      st'.progress = st.progress ++ [{ fileId := entry.fileId, haveBitmap := bitmap.asBytes }] ∧
      st'.totalBytes = st.totalBytes + entry.sizeBytes ∧
      st'.resumedBytes = st.resumedBytes + UInt64.ofNat bitmap.setCount * chunkSize.toUInt64 := by
  obtain ⟨fs, sink, bitmap, -, -, rfl⟩ := openEntry_eq_ok h
  exact ⟨sink, bitmap, rfl, rfl, rfl, rfl, rfl⟩

/-- The initial bitmap of a checked entry is always decided. -/
theorem Checked.For.exists_initialBitmap {blake3 : Blake3} {config : Config} {outputDir : FilePath}
    {chunkSize : UInt32} {entry : FileEntry} {c : Checked} {fs fs' : FileSystem} {sink : SinkFile}
    {io : SinkIo} (hc : c.For blake3 config outputDir chunkSize entry)
    (hcreate : SinkFile.create fs c.dest entry.sizeBytes chunkSize io = (fs', .ok sink))
    (resume preexisting : Bool) (x : EntryIo) :
    ∃ b, initialBitmap blake3 resume fs' preexisting sink c x = .ok b := by
  have hlayout : sink.layout = c.layout :=
    Except.ok.inj ((SinkFile.create_ok hcreate).layout_ok.symm.trans hc.layout_ok)
  have hlen : c.chunkHashes.length = sink.layout.count := by
    rw [hlayout]
    exact splitHashes_ok hc.hashes_ok
  unfold initialBitmap
  split
  · exact ⟨_, rfl⟩
  · split
    · exact ⟨_, rfl⟩
    · split
      · exact Resume.exists_rebuildByVerification fs' x.readable hlen
      · exact ⟨_, rfl⟩

/-- An entry whose contents are accepted is refused for a failing system call only. -/
theorem openEntry_error {blake3 : Blake3} {config : Config} {outputDir : FilePath}
    {chunkSize : UInt32} {st : OfferState} {entry : FileEntry} {c : Checked} {io : EntryIo}
    {r : Refused} (hc : c.For blake3 config outputDir chunkSize entry)
    (h : openEntry blake3 config chunkSize st entry c io = .error r) :
    ∃ doing, r.error = .io doing := by
  unfold openEntry at h
  simp only at h
  split at h
  · next fs e hcreate =>
      rw [Except.error.injEq] at h
      obtain ⟨doing, rfl⟩ := SinkFile.create_error hc.layout_ok hcreate
      exact ⟨doing, by rw [← h]⟩
  · next fs sink hcreate =>
      obtain ⟨b, hb⟩ := hc.exists_initialBitmap hcreate config.resume (st.disk.pathExists c.dest) io
      rw [hb] at h
      cases h

/-! ## The loop -/

theorem offerLoop_append (blake3 : Blake3) (config : Config) (outputDir : FilePath)
    (chunkSize : UInt32) (st : OfferState) (xs ys : List (FileEntry × EntryIo)) :
    offerLoop blake3 config outputDir chunkSize st (xs ++ ys)
      = (offerLoop blake3 config outputDir chunkSize st xs).bind fun st' =>
          offerLoop blake3 config outputDir chunkSize st' ys := by
  unfold offerLoop
  rw [List.foldlM_append]
  rfl

/-- A refused offer has a first refused entry, met on the state its predecessors left. -/
theorem offerLoop_error {blake3 : Blake3} {config : Config} {outputDir : FilePath}
    {chunkSize : UInt32} {st : OfferState} {xs : List (FileEntry × EntryIo)} {r : Refused}
    (h : offerLoop blake3 config outputDir chunkSize st xs = .error r) :
    ∃ pre x post st', xs = pre ++ x :: post ∧
      offerLoop blake3 config outputDir chunkSize st pre = .ok st' ∧
      offerEntry blake3 config outputDir chunkSize st' x = .error r := by
  induction xs generalizing st with
  | nil => cases h
  | cons x xs ih =>
      rw [offerLoop, List.foldlM_cons] at h
      cases hx : offerEntry blake3 config outputDir chunkSize st x with
      | error r' =>
          rw [hx] at h
          obtain rfl : r' = r := Except.error.inj h
          exact ⟨[], x, xs, st, rfl, rfl, hx⟩
      | ok st1 =>
          rw [hx] at h
          obtain ⟨pre, y, post, st', rfl, hpre, hy⟩ := ih h
          refine ⟨x :: pre, y, post, st', rfl, ?_, hy⟩
          rw [offerLoop, List.foldlM_cons, hx]
          exact hpre

/-- An offer is accepted with its last entry when it is without it, and the entry is on the state left. -/
theorem offerLoop_concat {blake3 : Blake3} {config : Config} {outputDir : FilePath}
    {chunkSize : UInt32} {st st' : OfferState} {xs : List (FileEntry × EntryIo)}
    {x : FileEntry × EntryIo}
    (h : offerLoop blake3 config outputDir chunkSize st (xs ++ [x]) = .ok st') :
    ∃ s c, offerLoop blake3 config outputDir chunkSize st xs = .ok s ∧
      checkEntry blake3 config outputDir chunkSize s.seenPaths x.1 = .ok c ∧
      openEntry blake3 config chunkSize s x.1 c x.2 = .ok st' := by
  rw [offerLoop_append] at h
  cases hxs : offerLoop blake3 config outputDir chunkSize st xs with
  | error r =>
      rw [hxs] at h
      cases h
  | ok s =>
      rw [hxs] at h
      have hx : offerEntry blake3 config outputDir chunkSize s x = .ok st' := by
        simpa [offerLoop, Except.bind] using h
      unfold offerEntry at hx
      split at hx
      · cases hx
      · next c hc => exact ⟨s, c, rfl, hc, hx⟩

/-- **Loop rule.** What every accepted entry keeps, relative to the entries seen so far, the loop
    keeps. -/
theorem offerLoop_induct {blake3 : Blake3} {config : Config} {outputDir : FilePath}
    {chunkSize : UInt32} {P : List (FileEntry × EntryIo) → OfferState → Prop} {st : OfferState}
    (hnil : P [] st)
    (hstep : ∀ pre x s c s', P pre s → checkEntry blake3 config outputDir chunkSize s.seenPaths x.1
        = .ok c → openEntry blake3 config chunkSize s x.1 c x.2 = .ok s' → P (pre ++ [x]) s')
    {xs : List (FileEntry × EntryIo)} {st' : OfferState}
    (h : offerLoop blake3 config outputDir chunkSize st xs = .ok st') : P xs st' := by
  induction xs using List.reverseRecOn generalizing st' with
  | nil => exact Except.ok.inj h ▸ hnil
  | append_singleton xs x ih =>
      obtain ⟨s, c, hxs, hc, hx⟩ := offerLoop_concat h
      exact hstep xs x s c st' (ih hxs) hc hx

end AetherLink
