import AetherLink.Core.Io
import AetherLink.Spec.Held
import Mathlib.Data.List.Basic

set_option autoImplicit false

/-! # Resume across reconnect

What a staging file already holds is learnt from the `.aether_state` record beside it, or, where no
record applies, by hashing the file. A record names the transfer it belongs to (`StateKey`) and
carries the bitmap and a checksum; it is written to a temporary file, synced and renamed. -/

namespace AetherLink

open Bytes Storage

/-! ## Names -/

/-- `Path::file_name`, empty where there is none. -/
def fileName (p : FilePath) : String :=
  p.getLastD ""

/-- `Path::with_file_name`. -/
def withFileName (p : FilePath) (name : String) : FilePath :=
  p.dropLast ++ [name]

/-- `Path::file_stem`: the name up to its last dot; all of it where there is no dot, or only a
    leading one. -/
def fileStem (name : List Char) : List Char :=
  let before := ((name.reverse.dropWhile (· ≠ '.')).drop 1).reverse
  if name = ['.', '.'] ∨ before = [] then name else before

/-- `Path::with_extension`. -/
def withExtension (p : FilePath) (ext : String) : FilePath :=
  withFileName p (String.ofList (fileStem (fileName p).toList) ++ "." ++ ext)

/-- Sidecar path for a staging file. -/
def statePath (staging : FilePath) : FilePath :=
  withFileName staging (fileName staging ++ ".aether_state")

/-- Where `persist` writes the record before renaming it. -/
def tmpPath (staging : FilePath) : FilePath :=
  withExtension (statePath staging) "tmp"

@[simp] theorem fileName_withFileName (p : FilePath) (name : String) :
    fileName (withFileName p name) = name := by
  simp [fileName, withFileName]

@[simp] theorem dropLast_withFileName (p : FilePath) (name : String) :
    (withFileName p name).dropLast = p.dropLast := by
  simp [withFileName]

theorem withFileName_fileName {p : FilePath} (hp : p ≠ []) : withFileName p (fileName p) = p := by
  rw [withFileName, fileName, List.getLastD_eq_getLast?, List.getLast?_eq_some_getLast hp,
    Option.getD_some, List.dropLast_append_getLast hp]

theorem withFileName_inj {p q : FilePath} {a b : String}
    (h : withFileName p a = withFileName q b) : p.dropLast = q.dropLast ∧ a = b := by
  obtain ⟨h1, h2⟩ := List.append_inj' h rfl
  exact ⟨h1, by simpa using h2⟩

theorem fileStem_aether_state {x : List Char} (hx : x ≠ []) :
    fileStem (x ++ ".aether_state".toList) = x := by
  have hsplit : (x ++ ".aether_state".toList).reverse
      = "etats_rehtea".toList ++ '.' :: x.reverse := by
    rw [List.reverse_append]
    rfl
  have hskip : ("etats_rehtea".toList ++ '.' :: x.reverse).dropWhile (· ≠ '.') = '.' :: x.reverse :=
    rfl
  have hlen : x ++ ".aether_state".toList ≠ ['.', '.'] := by
    intro h
    have := congrArg List.length h
    rw [List.length_append] at this
    have hs : ".aether_state".toList.length = 13 := rfl
    simp only [hs, List.length_cons, List.length_nil] at this
    omega
  unfold fileStem
  simp only [hsplit, hskip, List.drop_one, List.tail_cons, List.reverse_reverse]
  rw [if_neg (not_or.2 ⟨hlen, hx⟩)]

/-- **The temporary file of `x` is `x.tmp`**: replacing the extension drops the one `statePath` has
    just appended. -/
theorem tmpPath_eq {staging : FilePath} (h : fileName staging ≠ "") :
    tmpPath staging = withFileName staging (fileName staging ++ ".tmp") := by
  have hne : (fileName staging).toList ≠ [] := fun hn => h (String.toList_inj.1 hn)
  unfold tmpPath withExtension
  rw [statePath, fileName_withFileName, String.toList_append, fileStem_aether_state hne,
    String.ofList_toList]
  unfold withFileName
  simp [String.append_assoc]

/-- A destination whose last component has a name. -/
def Named (p : FilePath) : Prop :=
  p ≠ [] ∧ fileName p ≠ ""

theorem append_ne_self {s t : String} (ht : t ≠ "") : s ++ t ≠ s := by
  intro h
  have := congrArg String.toList h
  rw [String.toList_append] at this
  exact ht (String.toList_inj.1 (List.append_right_eq_self.1 this))

theorem append_state_ne_append_tmp (s t : String) : s ++ ".aether_state" ≠ t ++ ".tmp" := by
  intro h
  have h1 := congrArg (fun u => u.toList.getLast?) h
  simp only [String.toList_append] at h1
  rw [List.getLast?_append_of_ne_nil _ (by decide), List.getLast?_append_of_ne_nil _ (by decide)]
    at h1
  exact absurd h1 (by decide)

theorem append_right_cancel {s t u : String} (h : s ++ u = t ++ u) : s = t := by
  have := congrArg String.toList h
  rw [String.toList_append, String.toList_append] at this
  exact String.toList_inj.1 (List.append_cancel_right this)

theorem statePath_ne_self {p : FilePath} (hp : p ≠ []) : statePath p ≠ p := by
  intro h
  exact append_ne_self (by decide) (withFileName_inj (h.trans (withFileName_fileName hp).symm)).2

theorem tmpPath_ne_self {p : FilePath} (hp : Named p) : tmpPath p ≠ p := by
  rw [tmpPath_eq hp.2]
  intro h
  exact append_ne_self (by decide)
    (withFileName_inj (h.trans (withFileName_fileName hp.1).symm)).2

theorem statePath_ne_tmpPath (p : FilePath) {q : FilePath} (hq : fileName q ≠ "") :
    statePath p ≠ tmpPath q := by
  rw [tmpPath_eq hq]
  intro h
  exact append_state_ne_append_tmp _ _ (withFileName_inj h).2

theorem eq_of_withFileName {p q : FilePath} (hp : p ≠ []) (hq : q ≠ []) {u : String}
    (h : withFileName p (fileName p ++ u) = withFileName q (fileName q ++ u)) : p = q := by
  obtain ⟨hdir, hname⟩ := withFileName_inj h
  rw [← withFileName_fileName hp, ← withFileName_fileName hq, withFileName, withFileName, hdir,
    append_right_cancel hname]

/-- Different files have different records and different temporary files. -/
theorem statePath_inj {p q : FilePath} (hp : p ≠ []) (hq : q ≠ []) (h : statePath p = statePath q) :
    p = q :=
  eq_of_withFileName hp hq h

theorem tmpPath_inj {p q : FilePath} (hp : Named p) (hq : Named q) (h : tmpPath p = tmpPath q) :
    p = q := by
  rw [tmpPath_eq hp.2, tmpPath_eq hq.2] at h
  exact eq_of_withFileName hp.1 hq.1 h

/-! ## The record -/

/-- Identity of the file a state record describes. -/
structure StateKey where
  rootHash : Hash
  fileSize : UInt64
  chunkSize : UInt32
  deriving DecidableEq

namespace Resume

/-- `b"AETHRSM1"`. -/
def MAGIC : List UInt8 :=
  [0x41, 0x45, 0x54, 0x48, 0x52, 0x53, 0x4d, 0x31]

/-- Magic, chunk size, chunk count, file size, root hash. -/
def HEADER_LEN : Nat := 8 + 4 + 8 + 8 + 32

/-- The record without its checksum. -/
def recordBody (key : StateKey) (bitmap : ChunkBitmap) : List UInt8 :=
  MAGIC ++ leBytes 4 key.chunkSize.toNat ++ leBytes 8 bitmap.count ++
    leBytes 8 key.fileSize.toNat ++ key.rootHash.1 ++ bitmap.asBytes

/-- What `persist` writes: the bitmap with its identity and a checksum. -/
def record (blake3 : Blake3) (key : StateKey) (bitmap : ChunkBitmap) : List UInt8 :=
  let body := recordBody key bitmap
  body ++ (blake3 body).1

/-- Writes the record, when every call succeeds: to the temporary file, synced, renamed into
    place. -/
def persist (blake3 : Blake3) (fs : FileSystem) (staging : FilePath) (key : StateKey)
    (bitmap : ChunkBitmap) : Option FileSystem :=
  match fs.create (tmpPath staging) with
  | none => none
  | some (created, ino) =>
      let written := created.write ino (.pwrite 0 (record blake3 key bitmap))
      (written.sync ino).rename (tmpPath staging) (statePath staging)

/-- The bits and the chunk count in a record that is intact and describes exactly this file. -/
def parseRecord (blake3 : Blake3) (key : StateKey) (raw : List UInt8) :
    Option (List UInt8 × Nat) :=
  if raw.length < HEADER_LEN + 32 then none
  else
    let body := raw.take (raw.length - 32)
    let storedChecksum := raw.drop (raw.length - 32)
    if (blake3 body).1 ≠ storedChecksum then none
    else if slice body 0 8 ≠ MAGIC then none
    else
      let chunkSize := leNat (slice body 8 4)
      let chunkCount := leNat (slice body 12 8)
      let fileSize := leNat (slice body 20 8)
      let rootHash := slice body 28 32
      -- a record that belongs to a different transfer
      if chunkSize ≠ key.chunkSize.toNat ∨ fileSize ≠ key.fileSize.toNat ∨
          rootHash ≠ key.rootHash.1 then none
      else some (body.drop HEADER_LEN, chunkCount)

/-- Reads a sidecar, returning its bitmap only if it is intact, describes exactly this file, and the
    staging file has the recorded length. -/
def load (blake3 : Blake3) (fs : FileSystem) (staging : FilePath) (key : StateKey) :
    Option ChunkBitmap :=
  match fs.contents (statePath staging) with
  | none => none
  | some raw =>
      match parseRecord blake3 key raw with
      | none => none
      | some (bits, chunkCount) =>
          match fs.contents staging with
          | none => none
          | some content =>
              if content.length ≠ key.fileSize.toNat then none
              else (ChunkBitmap.fromBytes bits chunkCount).toOption

/-- What is left of the loop by the panic of an index past the last digest. -/
def outOfBounds : Error :=
  .io "index out of bounds"

/-- One turn of the verification loop. A short or unreadable region is a chunk not present yet. -/
def rebuildStep (blake3 : Blake3) (fs : FileSystem) (sink : SinkFile) (chunkHashes : List Hash)
    (readable : Nat → Bool) (bitmap : ChunkBitmap) (index : Nat) : Except Error ChunkBitmap :=
  match sink.readChunk fs readable index with
  | .error _ => .ok bitmap
  | .ok bytes =>
      match chunkHashes[index]? with
      | none => .error outOfBounds
      | some digest =>
          if hashChunk blake3 bytes = digest then (bitmap.set index).mapError .wire
          else .ok bitmap

/-- Rebuilds a bitmap by hashing what is on disk. -/
def rebuildByVerification (blake3 : Blake3) (fs : FileSystem) (sink : SinkFile)
    (chunkHashes : List Hash) (readable : Nat → Bool) : Except Error ChunkBitmap :=
  (List.range sink.layout.count).foldlM (rebuildStep blake3 fs sink chunkHashes readable)
    (ChunkBitmap.new sink.layout.count)

/-- Removes the sidecar and the temporary file; a failure is ignored. -/
def discard (fs : FileSystem) (staging : FilePath) : FileSystem :=
  let dropped := (fs.remove (statePath staging)).getD fs
  (dropped.remove (tmpPath staging)).getD dropped

/-! ### Records parse back -/

theorem length_recordBody (key : StateKey) (bitmap : ChunkBitmap) :
    (recordBody key bitmap).length = HEADER_LEN + bitmap.bits.length := by
  simp only [recordBody, List.length_append, length_leBytes, key.rootHash.2, ChunkBitmap.asBytes,
    HEADER_LEN]
  rfl

theorem length_record (blake3 : Blake3) (key : StateKey) (bitmap : ChunkBitmap) :
    (record blake3 key bitmap).length = HEADER_LEN + bitmap.bits.length + 32 := by
  unfold record
  rw [List.length_append, length_recordBody, (blake3 (recordBody key bitmap)).2]

/-- The fixed fields of a record body, at their places. -/
theorem slices_recordBody (key : StateKey) (bitmap : ChunkBitmap) :
    slice (recordBody key bitmap) 0 8 = MAGIC ∧
      slice (recordBody key bitmap) 8 4 = leBytes 4 key.chunkSize.toNat ∧
      slice (recordBody key bitmap) 12 8 = leBytes 8 bitmap.count ∧
      slice (recordBody key bitmap) 20 8 = leBytes 8 key.fileSize.toNat ∧
      slice (recordBody key bitmap) 28 32 = key.rootHash.1 ∧
      (recordBody key bitmap).drop HEADER_LEN = bitmap.bits := by
  have hroot := key.rootHash.2
  refine ⟨rfl, rfl, rfl, rfl, ?_, ?_⟩
  · have : slice (recordBody key bitmap) 28 32 = (key.rootHash.1 ++ bitmap.bits).take 32 := rfl
    rw [this, List.take_append_of_le_length (by omega), List.take_of_length_le (by omega)]
  · have : (recordBody key bitmap).drop HEADER_LEN = (key.rootHash.1 ++ bitmap.bits).drop 32 := rfl
    rw [this, List.drop_append_of_le_length (by omega), List.drop_of_length_le (by omega),
      List.nil_append]

/-- **A record parses back for its own key, and for no other.** -/
theorem parseRecord_record {blake3 : Blake3} {key key' : StateKey} {bitmap : ChunkBitmap}
    (hcount : bitmap.count < 2 ^ 64) (x : List UInt8 × Nat) :
    parseRecord blake3 key (record blake3 key' bitmap) = some x ↔
      key' = key ∧ x = (bitmap.bits, bitmap.count) := by
  obtain ⟨h1, h2, h3, h4, h5, h6⟩ := slices_recordBody key' bitmap
  have hlen := length_record blake3 key' bitmap
  have hbody : (record blake3 key' bitmap).take ((record blake3 key' bitmap).length - 32)
      = recordBody key' bitmap := by
    rw [hlen, ← length_recordBody, Nat.add_sub_cancel]
    exact List.take_left' rfl
  have hsum : (record blake3 key' bitmap).drop ((record blake3 key' bitmap).length - 32)
      = (blake3 (recordBody key' bitmap)).1 := by
    rw [hlen, ← length_recordBody, Nat.add_sub_cancel]
    exact List.drop_left' rfl
  have nchunk : leNat (leBytes 4 key'.chunkSize.toNat) = key'.chunkSize.toNat :=
    leNat_leBytes key'.chunkSize.toNat_lt
  have ncount : leNat (leBytes 8 bitmap.count) = bitmap.count := leNat_leBytes hcount
  have nsize : leNat (leBytes 8 key'.fileSize.toNat) = key'.fileSize.toNat :=
    leNat_leBytes key'.fileSize.toNat_lt
  unfold parseRecord
  simp only [hbody, hsum, h1, h2, h3, h4, h5, h6, nchunk, ncount, nsize]
  rw [if_neg (by omega), if_neg (by simp), if_neg (by simp)]
  split
  · next hne =>
      constructor
      · nofun
      · rintro ⟨rfl, -⟩
        simp at hne
  · next heq =>
      simp only [not_or, not_not] at heq
      obtain ⟨hc, hf, hr⟩ := heq
      have hkey : key' = key := by
        cases key'
        cases key
        simp only [StateKey.mk.injEq]
        exact ⟨Subtype.ext hr, UInt64.toNat_inj.1 hf, UInt32.toNat_inj.1 hc⟩
      rw [Option.some.injEq]
      exact ⟨fun h => ⟨hkey, h.symm⟩, fun h => h.2.symm⟩

/-- **What `load` makes of a record**: the recorded bitmap, if the key and the length of the staging
    file are the recorded ones. -/
theorem load_of_record {blake3 : Blake3} {fs : FileSystem} {staging : FilePath}
    {key key' : StateKey} {bitmap b : ChunkBitmap} (hwf : bitmap.Wf) (hcount : bitmap.count < 2 ^ 64)
    (hrec : fs.contents (statePath staging) = some (record blake3 key' bitmap)) :
    load blake3 fs staging key = some b ↔
      key' = key ∧ b = bitmap ∧
        ∃ c, fs.contents staging = some c ∧ c.length = key.fileSize.toNat := by
  unfold load
  simp only [hrec]
  cases hp : parseRecord blake3 key (record blake3 key' bitmap) with
  | none =>
      constructor
      · nofun
      · rintro ⟨hk, -, -⟩
        have hparse : parseRecord blake3 key (record blake3 key' bitmap)
            = some (bitmap.bits, bitmap.count) := (parseRecord_record hcount _).2 ⟨hk, rfl⟩
        rw [hp] at hparse
        cases hparse
  | some x =>
      obtain ⟨hk, rfl⟩ := (parseRecord_record hcount x).1 hp
      have hback : ChunkBitmap.fromBytes bitmap.bits bitmap.count = .ok bitmap :=
        hwf.fromBytes_asBytes
      cases hc : fs.contents staging with
      | none => simp
      | some content =>
          simp only [hback]
          by_cases hlen : content.length = key.fileSize.toNat
          · simp [hlen, hk, Except.toOption, eq_comm]
          · simp [hlen]

/-- What `persist` leaves at the record's path. -/
theorem contents_persist {blake3 : Blake3} {fs fs' : FileSystem} {staging : FilePath}
    {key : StateKey} {bitmap : ChunkBitmap} (hn : fileName staging ≠ "")
    (h : persist blake3 fs staging key bitmap = some fs') :
    fs'.contents (statePath staging) = some (record blake3 key bitmap) := by
  unfold persist at h
  split at h
  · cases h
  · next created ino hcreate =>
      have hne := (statePath_ne_tmpPath staging hn).symm
      rw [Disk.contents_of_rename h hne, if_pos rfl]
      have hnode := Disk.node_of_create hcreate
      rw [Disk.contents_of_node (i := ino) (by simpa using hnode), Disk.data_sync,
        Disk.data_write_self, Disk.data_of_create hcreate, DataOp.apply, pwrite_nil_zero]

/-! ### Rebuilding -/

variable {blake3 : Blake3}

/-- A chunk is read and has its digest exactly if it is readable and held. -/
theorem readChunk_verifies_iff {fs : FileSystem} {sink : SinkFile} {hs : List Hash}
    {readable : Nat → Bool} (i : Nat) :
    (∃ bytes, sink.readChunk fs readable i = .ok bytes ∧ hs[i]? = some (hashChunk blake3 bytes)) ↔
      readable i = true ∧ ChunkHeld blake3 sink.layout hs (fs.data sink.ino) i := by
  unfold SinkFile.readChunk ChunkHeld
  cases hrange : sink.layout.range i with
  | error e => simp
  | ok r =>
      obtain ⟨off, len⟩ := r
      by_cases hcond : readable i ∧ off + len ≤ (fs.data sink.ino).length
      · simp [hcond]
      · simp only [if_neg hcond]
        constructor
        · rintro ⟨bytes, hread, -⟩
          cases hread
        · rintro ⟨hr, hlen, -⟩
          exact absurd ⟨hr, hlen⟩ hcond

/-- **One turn of the loop** sets the bit of its own chunk if that verifies, and does nothing if it
    does not. -/
theorem rebuildStep_ok {fs : FileSystem} {sink : SinkFile} {hs : List Hash} {readable : Nat → Bool}
    {b b' : ChunkBitmap} {i : Nat} (h : rebuildStep blake3 fs sink hs readable b i = .ok b') :
    (b.set i = .ok b' ∧ readable i = true ∧ ChunkHeld blake3 sink.layout hs (fs.data sink.ino) i) ∨
      (b' = b ∧ ¬ (readable i = true ∧
        ChunkHeld blake3 sink.layout hs (fs.data sink.ino) i)) := by
  have hiff := @readChunk_verifies_iff blake3 fs sink hs readable i
  unfold rebuildStep at h
  split at h
  · next e hread =>
      refine Or.inr ⟨(Except.ok.inj h).symm, fun hheld => ?_⟩
      obtain ⟨bytes, hok, -⟩ := hiff.2 hheld
      rw [hread] at hok
      cases hok
  · next bytes hread =>
      split at h
      · cases h
      · next digest hdigest =>
          split at h
          · next hverifies =>
              subst hverifies
              cases hset : b.set i with
              | error e =>
                  rw [hset] at h
                  cases h
              | ok b₁ =>
                  rw [hset] at h
                  obtain rfl : b₁ = b' := Except.ok.inj h
                  exact Or.inl ⟨rfl, hiff.1 ⟨bytes, hread, hdigest⟩⟩
          · next hdiffers =>
              refine Or.inr ⟨(Except.ok.inj h).symm, fun hheld => hdiffers ?_⟩
              obtain ⟨bytes', hok, hdigest'⟩ := hiff.2 hheld
              obtain rfl := Except.ok.inj (hread.symm.trans hok)
              exact Option.some.inj (hdigest'.symm.trans hdigest)

/-- With a digest for every chunk, a turn of the loop does not fail. -/
theorem exists_rebuildStep {sink : SinkFile} {hs : List Hash} {b : ChunkBitmap} {i : Nat}
    (fs : FileSystem) (readable : Nat → Bool) (hi : i < hs.length) (hset : i < b.count) :
    ∃ b', rebuildStep blake3 fs sink hs readable b i = .ok b' := by
  unfold rebuildStep
  split
  · exact ⟨b, rfl⟩
  · rw [List.getElem?_eq_getElem hi]
    simp only
    split
    · obtain ⟨b', hb'⟩ := ChunkBitmap.set_ok hset
      exact ⟨b', by rw [hb']; rfl⟩
    · exact ⟨b, rfl⟩

/-- What the verification loop keeps. -/
structure Rebuilt (blake3 : Blake3) (fs : FileSystem) (sink : SinkFile) (hs : List Hash)
    (b : ChunkBitmap) : Prop where
  wf : b.Wf
  count_eq : b.count = sink.layout.count
  truthful : Truthful blake3 sink.layout hs (fs.data sink.ino) b

theorem Rebuilt.step {fs : FileSystem} {sink : SinkFile} {hs : List Hash} {readable : Nat → Bool}
    {b b' : ChunkBitmap} {i : Nat} (hb : Rebuilt blake3 fs sink hs b)
    (h : rebuildStep blake3 fs sink hs readable b i = .ok b') : Rebuilt blake3 fs sink hs b' := by
  rcases rebuildStep_ok h with ⟨hset, -, hheld⟩ | ⟨rfl, -⟩
  · refine ⟨hb.wf.set hset, (ChunkBitmap.count_of_set hset).trans hb.count_eq, fun j hj => ?_⟩
    rw [ChunkBitmap.has_of_set hb.wf hset, Bool.or_eq_true, decide_eq_true_eq] at hj
    rcases hj with hj | rfl
    · exact hb.truthful j hj
    · exact hheld
  · exact hb

/-- An empty bitmap claims nothing. -/
theorem truthful_new (l : ChunkLayout) (hs : List Hash) (c : List UInt8) (n : Nat) :
    Truthful blake3 l hs c (ChunkBitmap.new n) := by
  intro i hi
  rw [ChunkBitmap.has_new] at hi
  cases hi

/-- **Rebuilding never sets a bit it has not verified.** -/
theorem rebuildByVerification_ok {fs : FileSystem} {sink : SinkFile} {hs : List Hash}
    {readable : Nat → Bool} {b : ChunkBitmap}
    (h : rebuildByVerification blake3 fs sink hs readable = .ok b) :
    Rebuilt blake3 fs sink hs b := by
  have hloop : ∀ (is : List Nat) (b0 : ChunkBitmap), Rebuilt blake3 fs sink hs b0 →
      is.foldlM (rebuildStep blake3 fs sink hs readable) b0 = .ok b →
        Rebuilt blake3 fs sink hs b := by
    intro is
    induction is with
    | nil => exact fun b0 hb0 hrun => Except.ok.inj hrun ▸ hb0
    | cons i is ih =>
        intro b0 hb0 hrun
        rw [List.foldlM_cons] at hrun
        cases hstep : rebuildStep blake3 fs sink hs readable b0 i with
        | error e =>
            rw [hstep] at hrun
            cases hrun
        | ok b1 =>
            rw [hstep] at hrun
            exact ih b1 (hb0.step hstep) hrun
  exact hloop _ _ ⟨ChunkBitmap.wf_new _, rfl, truthful_new _ _ _ _⟩ h

/-- Rebuilding reads nothing but the file. -/
theorem rebuildByVerification_congr {fs fs' : FileSystem} {sink : SinkFile}
    (h : fs'.data sink.ino = fs.data sink.ino) (hs : List Hash) (readable : Nat → Bool) :
    rebuildByVerification blake3 fs' sink hs readable
      = rebuildByVerification blake3 fs sink hs readable := by
  have hread : ∀ i, sink.readChunk fs' readable i = sink.readChunk fs readable i := by
    intro i
    simp only [SinkFile.readChunk, h]
  simp only [rebuildByVerification, funext₂ fun b i => show
    rebuildStep blake3 fs' sink hs readable b i = rebuildStep blake3 fs sink hs readable b i by
      simp only [rebuildStep, hread]]

/-- With a digest for every chunk, rebuilding ends with a bitmap: the loop only sets indices of the
    layout. -/
theorem exists_rebuildByVerification {sink : SinkFile} {hs : List Hash} (fs : FileSystem)
    (readable : Nat → Bool) (hlen : hs.length = sink.layout.count) :
    ∃ b, rebuildByVerification blake3 fs sink hs readable = .ok b := by
  have hloop : ∀ (is : List Nat) (b0 : ChunkBitmap), (∀ i ∈ is, i < sink.layout.count) →
      b0.count = sink.layout.count →
        ∃ b, is.foldlM (rebuildStep blake3 fs sink hs readable) b0 = .ok b := by
    intro is
    induction is with
    | nil => exact fun b0 _ _ => ⟨b0, rfl⟩
    | cons i is ih =>
        intro b0 his hcount
        have hi := his i List.mem_cons_self
        obtain ⟨b1, hstep⟩ := @exists_rebuildStep blake3 sink hs b0 i fs readable (hlen ▸ hi)
          (hcount ▸ hi)
        have hcount1 : b1.count = sink.layout.count := by
          rcases rebuildStep_ok hstep with ⟨hset, -⟩ | ⟨rfl, -⟩
          · exact (ChunkBitmap.count_of_set hset).trans hcount
          · exact hcount
        rw [List.foldlM_cons, hstep]
        exact ih b1 (fun j hj => his j (List.mem_cons_of_mem _ hj)) hcount1
  exact hloop _ _ (fun i hi => List.mem_range.1 hi) rfl

end Resume

end AetherLink
