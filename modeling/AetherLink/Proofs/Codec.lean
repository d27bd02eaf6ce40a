import AetherLink.Proofs.Offer
import AetherLink.Proto.Frame

set_option autoImplicit false

/-! # The record codec

`load` accepts, for a key and a staging file of the key's length, exactly the records `persist` writes
for the key. What a record does not tie to the key is its chunk count: that comes back as it is
recorded, whatever the layout of the offered file. -/

namespace AetherLink

open Bytes Storage

namespace Resume

variable {blake3 : Blake3} {fs fs' : FileSystem} {staging : FilePath} {key : StateKey}
  {b : ChunkBitmap} {raw : List UInt8}

/-! ## What parses -/

/-- The body of a record, field by field. -/
theorem body_eq_fields (body : List UInt8) :
    body = slice body 0 8 ++ slice body 8 4 ++ slice body 12 8 ++ slice body 20 8 ++
      slice body 28 32 ++ body.drop HEADER_LEN := by
  have htake : ∀ n k, body.take (n + k) = body.take n ++ slice body n k := fun n k => List.take_add
  have hhead : body.take HEADER_LEN = slice body 0 8 ++ slice body 8 4 ++ slice body 12 8 ++
      slice body 20 8 ++ slice body 28 32 := by
    rw [show HEADER_LEN = 28 + 32 by rfl, htake, show 28 = 20 + 8 by rfl, htake,
      show 20 = 12 + 8 by rfl, htake, show 12 = 8 + 4 by rfl, htake]
    rfl
  rw [← hhead, List.take_append_drop]

/-- Every field `load` slices out of a long enough file is there. -/
theorem fields_in_body (h : ¬ raw.length < HEADER_LEN + 32) :
    HEADER_LEN ≤ (raw.take (raw.length - 32)).length ∧
      (raw.drop (raw.length - 32)).length = 32 := by
  rw [List.length_take, List.length_drop, HEADER_LEN] at *
  omega

/-- **What parses is a record**: of the key, with these bits and this count. -/
theorem record_of_parseRecord {bits : List UInt8} {count : Nat}
    (h : parseRecord blake3 key raw = some (bits, count)) (hb : b.bits = bits ∧ b.count = count) :
    raw = record blake3 key b ∧ count < 2 ^ 64 := by
  obtain ⟨rfl, rfl⟩ := hb
  unfold parseRecord at h
  split at h
  · cases h
  · next hlong =>
      obtain ⟨hbody, hsum⟩ := fields_in_body hlong
      simp only at h
      split at h
      · cases h
      · next hcheck =>
          split at h
          · cases h
          · next hmagic =>
              split at h
              · cases h
              · next hkey =>
                  simp only [Option.some.injEq, Prod.mk.injEq] at h
                  obtain ⟨hbits, hcount⟩ := h
                  simp only [not_or, not_not] at hcheck hmagic hkey
                  obtain ⟨hchunk, hsize, hroot⟩ := hkey
                  generalize hbd : raw.take (raw.length - 32) = body at *
                  have hcut : ∀ off w, off + w ≤ HEADER_LEN →
                      slice body off w = leBytes w (leNat (slice body off w)) := fun off w hoff =>
                    FrameHeader.slice_eq_leBytes (hoff.trans hbody)
                  have hfields : body = recordBody key b := by
                    rw [recordBody, ← hmagic, ← hchunk, ← hcount, ← hsize, ← hroot,
                      ← hcut 8 4 (by decide), ← hcut 12 8 (by decide), ← hcut 20 8 (by decide),
                      ChunkBitmap.asBytes, ← hbits]
                    exact body_eq_fields body
                  refine ⟨?_, ?_⟩
                  · rw [record, ← hfields, hcheck, ← hbd, List.take_append_drop]
                  · rw [← hcount]
                    have hlt := leNat_lt (slice body 12 8)
                    rwa [length_slice_of_le (le_trans (by decide) hbody)] at hlt

/-- **When `load` returns a bitmap**: over its own record, and a staging file of the key's length. -/
theorem load_eq_some_iff :
    load blake3 fs staging key = some b ↔
      fs.contents (statePath staging) = some (record blake3 key b) ∧ b.Wf ∧ b.count < 2 ^ 64 ∧
        ∃ content, fs.contents staging = some content ∧ content.length = key.fileSize.toNat := by
  constructor
  · intro h
    unfold load at h
    split at h
    · cases h
    · next raw hraw =>
        split at h
        · cases h
        · next bits count hparse =>
            split at h
            · cases h
            · next content hcontent =>
                split at h
                · cases h
                · next hlen =>
                    have hfrom := toOption_eq_some.1 h
                    obtain ⟨hbits, hcount, hwf⟩ := ChunkBitmap.fromBytes_ok hfrom
                    obtain ⟨hrecord, hlt⟩ := record_of_parseRecord hparse ⟨hbits, hcount⟩
                    exact ⟨hrecord ▸ hraw, hwf, hcount.symm ▸ hlt, content, hcontent, not_not.1 hlen⟩
  · rintro ⟨hrecord, hwf, hlt, hcontent⟩
    exact (load_of_record hwf hlt hrecord).2 ⟨rfl, rfl, hcontent⟩

/-! ## What `persist` leaves -/

/-- `persist` leaves the staging file as it is. -/
theorem staging_persist (hname : Named staging) (h : persist blake3 fs staging key b = some fs')
    {content : List UInt8} (hcontent : fs.contents staging = some content) :
    fs'.contents staging = some content := by
  unfold persist at h
  split at h
  · cases h
  · next created tmp hcreate =>
      have hne := (statePath_ne_tmpPath staging hname.2).symm
      have hstate : staging ≠ statePath staging := (statePath_ne_self hname.1).symm
      have htmp : staging ≠ tmpPath staging := (tmpPath_ne_self hname).symm
      rw [Disk.contents_of_rename h hne, if_neg hstate, if_neg htmp]
      obtain ⟨i, hnode, rfl⟩ := Disk.contents_eq_some hcontent
      obtain ⟨opened, hopen, rfl⟩ := Disk.create_eq hcreate
      have hstill : opened.node staging = some (.file i) :=
        (Disk.node_of_openRW_of_ne hopen htmp).trans hnode
      have hino : i ≠ tmp := by
        rintro rfl
        exact htmp (opened.node_inj _ _ _ hstill (Disk.node_of_openRW hopen))
      rw [Disk.contents_of_node (i := i) (by simpa using hstill), Disk.data_sync,
        Disk.data_write_of_ne _ _ hino, Disk.data_write_of_ne _ _ hino,
        (Disk.data_of_openRW hopen (fs.node_lt _ _ hnode)).1]

/-- **The record codec is exact.** What `persist` has written loads, beside a staging file of the
    key's length; and over any bytes at the record's path `load` returns a bitmap only if the bytes are
    the record `persist` writes of it, slicing nothing that is not there. -/
theorem record_codec_exact (blake3 : Blake3) (staging : FilePath) (key : StateKey) :
    (∀ (fs fs' : FileSystem) (b : ChunkBitmap) (content : List UInt8), Named staging → b.Wf →
      b.count < 2 ^ 64 → fs.contents staging = some content →
      content.length = key.fileSize.toNat → persist blake3 fs staging key b = some fs' →
      load blake3 fs' staging key = some b) ∧
    (∀ (fs : FileSystem) (raw : List UInt8), fs.contents (statePath staging) = some raw →
      ∀ b, load blake3 fs staging key = some b ↔
        raw = record blake3 key b ∧ b.Wf ∧ b.count < 2 ^ 64 ∧
          ∃ content, fs.contents staging = some content ∧ content.length = key.fileSize.toNat) ∧
    (∀ raw : List UInt8, ¬ raw.length < HEADER_LEN + 32 →
      HEADER_LEN ≤ (raw.take (raw.length - 32)).length ∧
        (raw.drop (raw.length - 32)).length = 32) := by
  refine ⟨fun fs fs' b content hname hwf hlt hcontent hlen h => ?_, fun fs raw hraw b => ?_,
    fun raw => fields_in_body⟩
  · exact load_eq_some_iff.2 ⟨contents_persist hname.2 h, hwf, hlt, content,
      staging_persist hname h hcontent, hlen⟩
  · rw [load_eq_some_iff, hraw, Option.some.injEq]

/-- What `persist` has written of a bitmap beside a file of the key's length loads. -/
theorem exists_recorded (blake3 : Blake3) {fs : FileSystem} {staging : FilePath}
    {content : List UInt8} (hname : Named staging) (hwf : b.Wf) (hlt : b.count < 2 ^ 64)
    (hcontent : fs.contents staging = some content)
    (hlen : content.length = key.fileSize.toNat)
    (h : (persist blake3 fs staging key b).isSome = true) :
    ∃ fs', persist blake3 fs staging key b = some fs' ∧
      fs'.contents (statePath staging) = some (record blake3 key b) ∧
      load blake3 fs' staging key = some b := by
  obtain ⟨fs', hfs'⟩ := Option.isSome_iff_exists.1 h
  have hrecord := contents_persist hname.2 hfs'
  exact ⟨fs', hfs', hrecord,
    load_eq_some_iff.2 ⟨hrecord, hwf, hlt, content, staging_persist hname hfs' hcontent, hlen⟩⟩

theorem named_a : Named ["out", "a"] :=
  ⟨by decide, by decide⟩

theorem record_codec_exact_stagedA :
    ∃ fs' : FileSystem, persist shortFileHash stagedA ["out", "a"] keyA oneChunkHeld = some fs' ∧
      load shortFileHash fs' ["out", "a"] keyA = some oneChunkHeld := by
  obtain ⟨fs', hfs'⟩ := Option.isSome_iff_exists.1
    (show (persist shortFileHash stagedA ["out", "a"] keyA oneChunkHeld).isSome = true by
      decide +kernel)
  exact ⟨fs', hfs', (record_codec_exact shortFileHash ["out", "a"] keyA).1 stagedA fs' oneChunkHeld
    [0x41] named_a wf_oneChunkHeld (by decide) (by decide +kernel) (by decide) hfs'⟩

/-! ## The chunk count of a record -/

/-- The chunk count a record states. -/
def statedCount (raw : List UInt8) : Nat :=
  leNat (slice raw 12 8)

theorem statedCount_record (h : b.count < 2 ^ 64) : statedCount (record blake3 key b) = b.count := by
  have hfield : slice (record blake3 key b) 12 8 = slice (recordBody key b) 12 8 := rfl
  rw [statedCount, hfield, (slices_recordBody key b).2.2.1, leNat_leBytes h]

/-- A bitmap of the layout's count serves the layout: it is complete exactly if every chunk is marked,
    and every chunk can be marked. -/
theorem serves_of_count_eq {layout : ChunkLayout} (hwf : b.Wf) (hcount : b.count = layout.count) :
    (b.isComplete = true ↔ ∀ i, i < layout.count → b.has i = true) ∧
      ∀ i, i < layout.count → ∃ b', b.set i = .ok b' := by
  rw [← hcount]
  exact ⟨hwf.isComplete_iff, fun i hi => ChunkBitmap.set_ok hi⟩

/-- **A loaded record fits the manifest exactly if the chunk count it states does.** -/
theorem loaded_record_fits_iff {layout : ChunkLayout}
    (hraw : fs.contents (statePath staging) = some raw)
    (hload : load blake3 fs staging key = some b)
    (hlayout : ChunkLayout.new key.fileSize key.chunkSize = .ok layout) :
    (b.count = layout.count ∧ (b.isComplete = true ↔ ∀ i, i < layout.count → b.has i = true) ∧
      ∀ i, i < layout.count → ∃ b', b.set i = .ok b') ↔
    statedCount raw = (divCeil key.fileSize.toNat key.chunkSize.toNat) := by
  obtain ⟨hrecord, hwf, hlt, -⟩ := load_eq_some_iff.1 hload
  obtain rfl := Option.some.inj (hraw.symm.trans hrecord)
  obtain ⟨hsize, hchunk⟩ := ChunkLayout.new_ok hlayout
  rw [statedCount_record hlt, ← hsize, ← hchunk, ← layout.count_eq]
  exact ⟨And.left, fun hcount => ⟨hcount, serves_of_count_eq hwf hcount⟩⟩

/-- The record of `out/a` fits when it states one chunk, and does not when it states none. -/
theorem loaded_record_fits_iff_stagedA :
    (∃ raw : List UInt8, statedCount raw = 1 ∧ oneChunkHeld.count = oneByteLayout.count ∧
      (oneChunkHeld.isComplete = true ↔ ∀ i, i < oneByteLayout.count → oneChunkHeld.has i = true) ∧
      ∀ i, i < oneByteLayout.count → ∃ b', oneChunkHeld.set i = .ok b') ∧
    ∃ raw : List UInt8, statedCount raw = 0 ∧
      ¬ ((ChunkBitmap.new 0).count = oneByteLayout.count ∧ ((ChunkBitmap.new 0).isComplete = true ↔
          ∀ i, i < oneByteLayout.count → (ChunkBitmap.new 0).has i = true) ∧
        ∀ i, i < oneByteLayout.count → ∃ b', (ChunkBitmap.new 0).set i = .ok b') := by
  have hcont : stagedA.contents ["out", "a"] = some [0x41] := by decide +kernel
  have hlayout : ChunkLayout.new keyA.fileSize keyA.chunkSize = .ok oneByteLayout := by
    decide +kernel
  have hlen : [0x41].length = keyA.fileSize.toNat := by decide
  constructor
  · obtain ⟨fs', -, hraw, hload⟩ := exists_recorded shortFileHash named_a wf_oneChunkHeld (by decide)
      hcont hlen (by decide +kernel)
    have hstated : statedCount (record shortFileHash keyA oneChunkHeld) = 1 :=
      statedCount_record (by decide)
    exact ⟨_, hstated, (loaded_record_fits_iff hraw hload hlayout).2 (hstated.trans (by decide))⟩
  · obtain ⟨fs', -, hraw, hload⟩ := exists_recorded shortFileHash named_a (ChunkBitmap.wf_new 0)
      (by decide) hcont hlen (by decide +kernel)
    have hstated : statedCount (record shortFileHash keyA (.new 0)) = 0 :=
      statedCount_record (by decide)
    refine ⟨_, hstated, fun hfits => ?_⟩
    have hone := (loaded_record_fits_iff hraw hload hlayout).1 hfits
    rw [hstated] at hone
    exact absurd hone (by decide)

/-- A record that states no chunk at all loads as a complete bitmap of the one-byte file. -/
theorem empty_record_completes_file :
    ¬ ∀ (blake3 : Blake3) (fs : FileSystem) (staging : FilePath) (key : StateKey) (b : ChunkBitmap)
      (layout : ChunkLayout), ChunkLayout.new key.fileSize key.chunkSize = .ok layout →
      load blake3 fs staging key = some b →
      b.count = layout.count ∧ (b.isComplete = true → ∀ i, i < layout.count → b.has i = true) := by
  intro hclaim
  obtain ⟨fs', -, -, hload⟩ := exists_recorded shortFileHash named_a (ChunkBitmap.wf_new 0)
    (by decide) (show stagedA.contents ["out", "a"] = some [0x41] by decide +kernel)
    (show [0x41].length = keyA.fileSize.toNat by decide) (by decide +kernel)
  have hall := (hclaim shortFileHash fs' ["out", "a"] keyA (.new 0) oneByteLayout
    (by decide +kernel) hload).2 (by decide) 0 (by decide)
  rw [ChunkBitmap.has_new] at hall
  cases hall

end Resume

end AetherLink
