import AetherLink.Proofs.Codec
import AetherLink.Proofs.Offer

set_option autoImplicit false

/-! # What a root commits to

The root of a file is the hash of a domain prefix, the number of chunks and their digests one after
the other, all of known width but the last, so a root fixes the digests, and with the file size and
the chunk size the content. What the record beside a destination says is therefore about one content,
whichever entry it is found for. -/

namespace AetherLink

open Bytes Storage

/-! ## What a key commits to -/

/-- The layout and the digests a key stands for. -/
structure StateKey.Commits (blake3 : Blake3) (key : StateKey) (l : ChunkLayout) (hs : List Hash) :
    Prop where
  layout_ok : ChunkLayout.new key.fileSize key.chunkSize = .ok l
  root_eq : rootFromChunkHashes blake3 hs = key.rootHash

theorem StateKey.Commits.unique {blake3 : Blake3} {T : Set Hash} (hcf : CollisionFreeOn blake3 T)
    {key : StateKey} (hroot : key.rootHash ∈ T) {l l' : ChunkLayout} {hs hs' : List Hash}
    (h : key.Commits blake3 l hs) (h' : key.Commits blake3 l' hs') : l' = l ∧ hs' = hs := by
  refine ⟨Except.ok.inj (h'.layout_ok.symm.trans h.layout_ok), ?_⟩
  exact rootFromChunkHashes_inj hcf (h'.root_eq ▸ hroot) (h'.root_eq.trans h.root_eq.symm)

theorem Checked.For.commits {blake3 : Blake3} {config : Config} {outputDir : FilePath}
    {chunkSize : UInt32} {entry : FileEntry} {c : Checked}
    (h : c.For blake3 config outputDir chunkSize entry) :
    c.key.Commits blake3 c.layout c.chunkHashes := by
  refine ⟨?_, ?_⟩
  · rw [h.key_eq]
    exact h.layout_ok
  · rw [h.key_eq]

/-! ## Entries of one content -/

/-- Two checked entries ask for the same chunks of the same content. -/
structure Checked.SameContent (blake3 : Blake3) (T : Set Hash) (c c' : Checked) : Prop where
  layout_eq : c'.layout = c.layout
  hashes_eq : c'.chunkHashes = c.chunkHashes
  content_eq : (∀ h ∈ c.chunkHashes, h ∈ T) → ∀ x y,
    IsContent blake3 c.layout c.chunkHashes x →
    IsContent blake3 c'.layout c'.chunkHashes y → x = y

/-- **Equal keys, one content.** -/
theorem Checked.For.sameContent {blake3 : Blake3} {T : Set Hash} (hcf : CollisionFreeOn blake3 T)
    {config config' : Config} {outputDir outputDir' : FilePath} {chunkSize chunkSize' : UInt32}
    {entry entry' : FileEntry} {c c' : Checked}
    (h : c.For blake3 config outputDir chunkSize entry)
    (h' : c'.For blake3 config' outputDir' chunkSize' entry') (hroot : c.key.rootHash ∈ T)
    (hkey : c'.key = c.key) : c.SameContent blake3 T c' := by
  obtain ⟨hlayout, hhashes⟩ := h.commits.unique hcf hroot (hkey ▸ h'.commits)
  refine ⟨hlayout, hhashes, fun hT x y hx hy => ?_⟩
  rw [hlayout, hhashes] at hy
  exact hx.unique hcf hT hy

/-! ## Records -/

/-- **A record says whose it is and what it holds**: equal records are of equal keys, and of the same
    bits. -/
theorem Resume.record_inj {blake3 : Blake3} {key key' : StateKey} {b b' : ChunkBitmap}
    (hcount : b.count < 2 ^ 64) (hcount' : b'.count < 2 ^ 64)
    (h : record blake3 key b = record blake3 key' b') :
    key = key' ∧ b'.bits = b.bits ∧ b'.count = b.count := by
  have hparse : parseRecord blake3 key' (record blake3 key b) = some (b'.bits, b'.count) :=
    h ▸ (parseRecord_record hcount' _).2 ⟨rfl, rfl⟩
  obtain ⟨hkey, hsame⟩ := (parseRecord_record hcount _).1 hparse
  exact ⟨hkey, Prod.mk.inj hsame⟩

/-! ### The one-byte file -/

theorem commits_keyA : keyA.Commits shortFileHash oneByteLayout [digestA] where
  layout_ok := by decide +kernel
  root_eq := by decide +kernel

theorem rootA_mem : rootA ∈ listedDigests shortFileDigests :=
  show rootA ∈ shortFileDigests.map Prod.snd by decide

theorem digestA_mem : ∀ h ∈ [digestA], h ∈ listedDigests shortFileDigests := by
  intro h hh
  obtain rfl := List.mem_singleton.1 hh
  exact show digestA ∈ shortFileDigests.map Prod.snd by decide

theorem contents_recordedA :
    recordedA.contents (statePath ["out", "a"])
      = some (Resume.record shortFileHash keyA oneChunkHeld) := by
  decide +kernel

theorem load_recordedA :
    Resume.load shortFileHash recordedA ["out", "a"] keyA = some oneChunkHeld := by
  decide +kernel

/-- The byte `A` offered as `name` under an id, checked. -/
theorem checkEntry_oneByteA (fileId : UInt64) {name : String} (outputDir : FilePath)
    (hname : sanitizeRelativePath name = .ok name) :
    checkEntry shortFileHash plainConfig outputDir 65536 [] (oneByteEntry fileId name rootA digestA)
      = .ok ⟨name, outputDir ++ pathComponents name, oneByteLayout, [digestA], keyA⟩ := by
  have hlayout : ChunkLayout.new 1 65536 = .ok oneByteLayout := commits_keyA.layout_ok
  have hroot : rootFromChunkHashes shortFileHash [digestA] = rootA := commits_keyA.root_eq
  have hsplit : splitHashes digestA.1 oneByteLayout.count = .ok [digestA] := by decide +kernel
  have hsize : ¬ plainConfig.maxFileBytes < 1 := by decide
  unfold checkEntry
  simp only [oneByteEntry, hname, List.not_mem_nil, if_false, hlayout, hsize, hsplit, hroot]
  rfl

/-! ## The root and the content -/

/-- **A root commits to the content.** Equal roots are of equal digest lists. Any two entries that
    the checks accept with equal keys, in whichever sessions, are cut into the same chunks with the
    same digests, and one content verifies for both. And a record that was written under the key of
    one and that is found for the other has both keys equal, so it describes that content. -/
theorem root_commits_to_content {blake3 : Blake3} {T : Set Hash}
    (hcf : CollisionFreeOn blake3 T) :
    (∀ xs ys : List Hash, rootFromChunkHashes blake3 xs ∈ T →
      rootFromChunkHashes blake3 xs = rootFromChunkHashes blake3 ys → xs = ys) ∧
    ∀ (config config' : Config) (outputDir outputDir' : FilePath) (chunkSize chunkSize' : UInt32)
      (seen seen' : List String) (entry entry' : FileEntry) (c c' : Checked),
      checkEntry blake3 config outputDir chunkSize seen entry = .ok c →
      checkEntry blake3 config' outputDir' chunkSize' seen' entry' = .ok c' →
      c.key.rootHash ∈ T →
      (c'.key = c.key →
        splitHashes entry.chunkHashes c.layout.count = .ok c.chunkHashes ∧
        splitHashes entry'.chunkHashes c.layout.count = .ok c.chunkHashes ∧
        c.SameContent blake3 T c') ∧
      ∀ (fs : FileSystem) (staging : FilePath) (b b' : ChunkBitmap), b.count < 2 ^ 64 →
        fs.contents (statePath staging) = some (Resume.record blake3 c.key b) →
        Resume.load blake3 fs staging c'.key = some b' →
        c'.key = c.key ∧ b'.bits = b.bits ∧ b'.count = b.count ∧ c.SameContent blake3 T c' := by
  refine ⟨fun xs ys hT h => rootFromChunkHashes_inj hcf hT h, ?_⟩
  intro config config' outputDir outputDir' chunkSize chunkSize' seen seen' entry entry' c c'
    hc hc' hroot
  obtain ⟨hfor, -⟩ := checkEntry_ok hc
  obtain ⟨hfor', -⟩ := checkEntry_ok hc'
  refine ⟨fun hkey => ?_, fun fs staging b b' hcount hrecord hload => ?_⟩
  · have hsame := hfor.sameContent hcf hfor' hroot hkey
    have hsplit := hfor'.hashes_ok
    rw [hsame.layout_eq, hsame.hashes_eq] at hsplit
    exact ⟨hfor.hashes_ok, hsplit, hsame⟩
  · obtain ⟨hfound, -, hcount', -⟩ := Resume.load_eq_some_iff.1 hload
    have hboth : Resume.record blake3 c.key b = Resume.record blake3 c'.key b' :=
      Option.some.inj (hrecord.symm.trans hfound)
    obtain ⟨hkey, hbits, hcounts⟩ := Resume.record_inj hcount hcount' hboth
    exact ⟨hkey.symm, hbits, hcounts, hfor.sameContent hcf hfor' hroot hkey.symm⟩

/-- The byte `A` offered as `a`, and later under another id as `b` in another directory. -/
theorem root_commits_to_content_oneByte :
    (∀ ys, rootFromChunkHashes shortFileHash [digestA] = rootFromChunkHashes shortFileHash ys →
      [digestA] = ys) ∧
    ∃ c c', checkEntry shortFileHash plainConfig ["out"] 65536 []
        (oneByteEntry 0 "a" rootA digestA) = .ok c ∧
      checkEntry shortFileHash plainConfig ["other"] 65536 []
        (oneByteEntry 7 "b" rootA digestA) = .ok c' ∧
      c.SameContent shortFileHash (listedDigests shortFileDigests) c' ∧
      Resume.load shortFileHash recordedA ["out", "a"] c'.key = some oneChunkHeld ∧
      c'.key = c.key := by
  obtain ⟨hroots, hentries⟩ := root_commits_to_content collisionFreeOn_shortFileHash
  have hc := checkEntry_oneByteA 0 ["out"] (show sanitizeRelativePath "a" = .ok "a" by decide +kernel)
  have hc' := checkEntry_oneByteA 7 ["other"]
    (show sanitizeRelativePath "b" = .ok "b" by decide +kernel)
  obtain ⟨hsame, hrecord⟩ := hentries _ _ _ _ _ _ _ _ _ _ _ _ hc hc' rootA_mem
  have hkey := (hrecord recordedA ["out", "a"] oneChunkHeld oneChunkHeld (by decide)
    contents_recordedA load_recordedA).1
  refine ⟨fun ys h => hroots _ ys ?_ h, _, _, hc, hc', (hsame hkey).2.2, load_recordedA, hkey⟩
  rw [commits_keyA.root_eq]
  exact rootA_mem

end AetherLink
