import AetherLink.Proofs.Session
import AetherLink.Proofs.Offer
import Mathlib.Data.UInt

set_option autoImplicit false

/-! # What an accepted offer has made

After the offer loop has accepted every entry, the file map holds, under each id, the state of the
last entry with that id. Destinations are told apart by the check on `seen_paths`; ids are not
checked, so an entry whose id comes again has lost its state. -/

namespace AetherLink

open Bytes Storage

/-- The file state is the one `run` makes for the entry. -/
structure FileState.Serves (blake3 : Blake3) (outputDir : FilePath) (chunkSize : UInt32)
    (entry : FileEntry) (s : FileState) : Prop where
  path : ∃ safePath, sanitizeRelativePath entry.relativePath = .ok safePath ∧
    s.sink.path = outputDir ++ pathComponents safePath
  layout_ok : ChunkLayout.new entry.sizeBytes chunkSize = .ok s.layout
  hashes_ok : splitHashes entry.chunkHashes s.layout.count = .ok s.chunkHashes
  key_eq : s.key =
    { rootHash := rootFromChunkHashes blake3 s.chunkHashes, fileSize := entry.sizeBytes,
      chunkSize := chunkSize }
  sink_layout : s.sink.layout = s.layout

namespace FileState.Serves

variable {blake3 : Blake3} {outputDir : FilePath} {chunkSize : UInt32} {entry entry' : FileEntry}
  {s s' : FileState}

/-- Serving an entry is about what never changes of a file state. -/
theorem mono (h : s.Serves blake3 outputDir chunkSize entry) (hsame : s.SameFile s') :
    s'.Serves blake3 outputDir chunkSize entry := by
  refine ⟨?_, ?_, ?_, ?_, ?_⟩
  · rw [hsame.sink]
    exact h.path
  · rw [hsame.layout]
    exact h.layout_ok
  · rw [hsame.layout, hsame.chunkHashes]
    exact h.hashes_ok
  · rw [hsame.key, hsame.chunkHashes]
    exact h.key_eq
  · rw [hsame.sink, hsame.layout]
    exact h.sink_layout

/-- Entries whose paths sanitize differently have different destinations. -/
theorem sanitize_eq (h : s.Serves blake3 outputDir chunkSize entry)
    (h' : s'.Serves blake3 outputDir chunkSize entry') (hpath : s.sink.path = s'.sink.path) :
    sanitizeRelativePath entry.relativePath = sanitizeRelativePath entry'.relativePath := by
  obtain ⟨p, hp, heq⟩ := h.path
  obtain ⟨p', hp', heq'⟩ := h'.path
  rw [heq, heq'] at hpath
  rw [hp, hp', dest_inj hpath]

theorem path_eq (h : s.Serves blake3 outputDir chunkSize entry)
    (h' : s'.Serves blake3 outputDir chunkSize entry) : s.sink.path = s'.sink.path := by
  obtain ⟨p, hp, heq⟩ := h.path
  obtain ⟨p', hp', heq'⟩ := h'.path
  obtain rfl := Except.ok.inj (hp.symm.trans hp')
  rw [heq, heq']

theorem named (h : s.Serves blake3 outputDir chunkSize entry) : Named s.sink.path := by
  obtain ⟨p, hp, heq⟩ := h.path
  rw [heq]
  exact named_dest outputDir hp

end FileState.Serves

/-- What the offer loop has made of the entries accepted so far. -/
structure Accepted (blake3 : Blake3) (outputDir : FilePath) (chunkSize : UInt32)
    (pre : List (FileEntry × EntryIo)) (st : OfferState) : Prop where
  seen : ∀ x ∈ pre, ∃ s ∈ st.seenPaths, sanitizeRelativePath x.1.relativePath = .ok s
  distinct : pre.Pairwise fun x y =>
    sanitizeRelativePath x.1.relativePath ≠ sanitizeRelativePath y.1.relativePath
  made : ∀ id s, st.files.lookup id = some s →
    ∃ x ∈ pre, x.1.fileId = id ∧ s.Serves blake3 outputDir chunkSize x.1
  kept : (pre.map fun x => x.1.fileId).Nodup → ∀ x ∈ pre,
    ∃ s, st.files.lookup x.1.fileId = some s ∧ s.Serves blake3 outputDir chunkSize x.1
  named : ∀ id s, st.files.lookup id = some s →
    st.disk.node s.sink.path = some (.file s.sink.ino)
  initial : ∀ id s, st.files.lookup id = some s →
    (∃ fs, Resume.load blake3 fs s.sink.path s.key = some s.bitmap) ∨
      s.bitmap = ChunkBitmap.new s.layout.count ∨
      ∃ readable, Resume.rebuildByVerification blake3 st.disk s.sink s.chunkHashes readable
        = .ok s.bitmap

theorem Resume.load_wf {blake3 : Blake3} {fs : FileSystem} {staging : FilePath} {key : StateKey}
    {b : ChunkBitmap} (h : Resume.load blake3 fs staging key = some b) : b.Wf := by
  unfold Resume.load at h
  split at h
  · cases h
  · split at h
    · cases h
    · split at h
      · cases h
      · split at h
        · cases h
        · next bits count _ _ _ _ _ =>
            cases hb : ChunkBitmap.fromBytes bits count with
            | error e =>
                rw [hb] at h
                cases h
            | ok b' =>
                rw [hb] at h
                obtain rfl : b' = b := Option.some.inj h
                exact (ChunkBitmap.fromBytes_ok hb).2.2

variable {blake3 : Blake3} {config : Config} {outputDir : FilePath} {chunkSize : UInt32}

theorem Accepted.step {pre : List (FileEntry × EntryIo)} {st st' : OfferState}
    {x : FileEntry × EntryIo} {c : Checked} (h : Accepted blake3 outputDir chunkSize pre st)
    (hcheck : checkEntry blake3 config outputDir chunkSize st.seenPaths x.1 = .ok c)
    (hopen : openEntry blake3 config chunkSize st x.1 c x.2 = .ok st') :
    Accepted blake3 outputDir chunkSize (pre ++ [x]) st' := by
  obtain ⟨hc, hfresh⟩ := checkEntry_ok hcheck
  obtain ⟨sink, bitmap, hsink, hbitmap, hfiles, hseen⟩ := openEntry_ok hopen
  have hserves : (c.fileState sink bitmap).Serves blake3 outputDir chunkSize x.1 := by
    refine ⟨⟨c.safePath, hc.sanitized, ?_⟩, hc.layout_ok, hc.hashes_ok, hc.key_eq, ?_⟩
    · rw [Checked.fileState, hsink.path_eq, hc.dest_eq]
    · exact Except.ok.inj (hsink.layout_ok.symm.trans hc.layout_ok)
  have hlookup : ∀ id s, st'.files.lookup id = some s →
      (id = x.1.fileId ∧ s = c.fileState sink bitmap) ∨ st.files.lookup id = some s := by
    intro id s hs
    rw [hfiles] at hs
    by_cases hid : id = x.1.fileId
    · subst hid
      rw [AList.lookup_insert, Option.some.injEq] at hs
      exact Or.inl ⟨rfl, hs.symm⟩
    · rw [AList.lookup_insert_ne hid] at hs
      exact Or.inr hs
  have hother : ∀ id s, st.files.lookup id = some s → s.sink.path ≠ c.dest := by
    intro id s hold
    obtain ⟨y, hy, -, hys⟩ := h.made id s hold
    obtain ⟨q, hq, hsan⟩ := h.seen y hy
    obtain ⟨q', hq', hpath⟩ := hys.path
    obtain rfl := Except.ok.inj (hsan.symm.trans hq')
    rw [hpath, hc.dest_eq]
    exact fun heq => hfresh (dest_inj heq ▸ hq)
  refine ⟨?_, ?_, ?_, ?_, ?_, ?_⟩
  · intro y hy
    rw [hseen]
    rcases List.mem_append.1 hy with hy | hy
    · obtain ⟨s, hs, hsan⟩ := h.seen y hy
      exact ⟨s, List.mem_cons_of_mem _ hs, hsan⟩
    · obtain rfl := List.mem_singleton.1 hy
      exact ⟨c.safePath, List.mem_cons_self, hc.sanitized⟩
  · refine List.pairwise_append.2 ⟨h.distinct, List.pairwise_singleton _ _, ?_⟩
    intro y hy z hz heq
    obtain rfl := List.mem_singleton.1 hz
    obtain ⟨s, hs, hsan⟩ := h.seen y hy
    rw [hsan, hc.sanitized, Except.ok.injEq] at heq
    exact hfresh (heq ▸ hs)
  · intro id s hs
    rcases hlookup id s hs with ⟨rfl, rfl⟩ | hold
    · exact ⟨x, by simp, rfl, hserves⟩
    · obtain ⟨y, hy, hid, hys⟩ := h.made id s hold
      exact ⟨y, List.mem_append_left _ hy, hid, hys⟩
  · intro hnodup y hy
    rw [List.map_append, List.nodup_append] at hnodup
    obtain ⟨hpre, -, hnew⟩ := hnodup
    rw [hfiles]
    rcases List.mem_append.1 hy with hy | hy
    · have hne : y.1.fileId ≠ x.1.fileId :=
        hnew _ (List.mem_map_of_mem hy) _ (by simp)
      rw [AList.lookup_insert_ne hne]
      exact h.kept hpre y hy
    · obtain rfl := List.mem_singleton.1 hy
      exact ⟨_, AList.lookup_insert _, hserves⟩
  · intro id s hs
    rcases hlookup id s hs with ⟨-, rfl⟩ | hold
    · rw [Checked.fileState, hsink.path_eq]
      exact hsink.node
    · exact (hsink.node_of_ne (hother id s hold) _).2 (h.named id s hold)
  · intro id s hs
    rcases hlookup id s hs with ⟨-, rfl⟩ | hold
    · rcases initialBitmap_cases hbitmap with ⟨-, -, hload⟩ | ⟨-, hnew | hrebuilt⟩
      · exact Or.inl ⟨st'.disk, by rw [Checked.fileState, hsink.path_eq, hload]⟩
      · exact Or.inr (Or.inl hnew)
      · exact Or.inr (Or.inr ⟨_, hrebuilt⟩)
    · rcases h.initial id s hold with hload | hnew | ⟨readable, hrebuilt⟩
      · exact Or.inl hload
      · exact Or.inr (Or.inl hnew)
      · have hdata := (hsink.data_of_node (hother id s hold) (h.named id s hold)).1
        rw [← Resume.rebuildByVerification_congr hdata] at hrebuilt
        exact Or.inr (Or.inr ⟨readable, hrebuilt⟩)

/-- **What the offer loop establishes when it accepts an offer.** -/
theorem accepted_offerLoop {disk : FileSystem} {xs : List (FileEntry × EntryIo)} {st : OfferState}
    (h : offerLoop blake3 config outputDir chunkSize (.init disk) xs = .ok st) :
    Accepted blake3 outputDir chunkSize xs st := by
  refine offerLoop_induct (P := Accepted blake3 outputDir chunkSize) ?_ ?_ h
  · exact ⟨nofun, List.Pairwise.nil, nofun, fun _ => nofun, nofun, nofun⟩
  · intro pre x s c s' hpre hcheck hopen
    exact hpre.step hcheck hopen

namespace Accepted

variable {xs : List (FileEntry × EntryIo)} {st : OfferState}

/-- An entry is told by its sanitized path. -/
theorem eq_of_sanitize_eq (h : Accepted blake3 outputDir chunkSize xs st)
    {x y : FileEntry × EntryIo} (hx : x ∈ xs) (hy : y ∈ xs)
    (heq : sanitizeRelativePath x.1.relativePath = sanitizeRelativePath y.1.relativePath) :
    x = y := by
  have hpairs : xs.Pairwise fun a b =>
      sanitizeRelativePath a.1.relativePath = sanitizeRelativePath b.1.relativePath → a = b :=
    h.distinct.imp fun hne heq => absurd heq hne
  have hflip := h.distinct.imp (S := flip fun a b : FileEntry × EntryIo =>
    sanitizeRelativePath a.1.relativePath = sanitizeRelativePath b.1.relativePath → a = b)
    fun hne heq => absurd heq.symm hne
  exact hpairs.forall_of_forall_of_flip (fun _ _ _ => rfl) hflip hx hy heq

/-- Different ids have different destinations, and different sinks. -/
theorem eq_of_path_eq (h : Accepted blake3 outputDir chunkSize xs st) {id id' : UInt64}
    {s s' : FileState} (hs : st.files.lookup id = some s) (hs' : st.files.lookup id' = some s')
    (hpath : s.sink.path = s'.sink.path) : id = id' := by
  obtain ⟨x, hx, rfl, hxs⟩ := h.made id s hs
  obtain ⟨y, hy, rfl, hys⟩ := h.made id' s' hs'
  rw [h.eq_of_sanitize_eq hx hy (hxs.sanitize_eq hys hpath)]

theorem eq_of_ino_eq (h : Accepted blake3 outputDir chunkSize xs st) {id id' : UInt64}
    {s s' : FileState} (hs : st.files.lookup id = some s) (hs' : st.files.lookup id' = some s')
    (hino : s.sink.ino = s'.sink.ino) : id = id' :=
  h.eq_of_path_eq hs hs'
    (st.disk.node_inj _ _ _ (h.named id s hs) (hino ▸ h.named id' s' hs'))

theorem wf (h : Accepted blake3 outputDir chunkSize xs st) {id : UInt64} {s : FileState}
    (hs : st.files.lookup id = some s) : s.bitmap.Wf := by
  rcases h.initial id s hs with ⟨fs, hload⟩ | hnew | ⟨readable, hrebuilt⟩
  · exact Resume.load_wf hload
  · rw [hnew]
    exact ChunkBitmap.wf_new _
  · exact (Resume.rebuildByVerification_ok hrebuilt).wf

/-- **Every entry has its file state exactly if the ids are distinct.** -/
theorem covered_iff (h : Accepted blake3 outputDir chunkSize xs st) :
    (∀ x ∈ xs, ∃ id s, st.files.lookup id = some s ∧ s.Serves blake3 outputDir chunkSize x.1) ↔
      (xs.map fun x => x.1.fileId).Nodup := by
  constructor
  · intro hall
    -- the state that serves an entry is stored under the entry's own id
    have hown : ∀ x ∈ xs, ∃ s, st.files.lookup x.1.fileId = some s ∧
        s.Serves blake3 outputDir chunkSize x.1 := by
      intro x hx
      obtain ⟨id, s, hs, hserves⟩ := hall x hx
      obtain ⟨y, hy, rfl, hys⟩ := h.made id s hs
      obtain rfl := h.eq_of_sanitize_eq hx hy (hserves.sanitize_eq hys rfl)
      exact ⟨s, hs, hserves⟩
    rw [List.Nodup, List.pairwise_map]
    refine h.distinct.imp_of_mem fun {x y} hx hy hne hid => ?_
    obtain ⟨s, hs, hxs⟩ := hown x hx
    obtain ⟨s', hs', hys⟩ := hown y hy
    rw [hid, hs', Option.some.injEq] at hs
    subst hs
    exact hne (hxs.sanitize_eq hys rfl)
  · intro hnodup x hx
    obtain ⟨s, hs, hserves⟩ := h.kept hnodup x hx
    exact ⟨_, s, hs, hserves⟩

end Accepted

/-! ## The answer -/

/-- The answer to the entries accepted so far: the bitmap each one starts with, and the totals. -/
structure Answered (chunkSize : UInt32) (pre : List (FileEntry × EntryIo))
    (bitmaps : List ChunkBitmap) (st : OfferState) : Prop where
  length_eq : bitmaps.length = pre.length
  accepted : st.accepted = pre.map fun x => x.1.fileId
  progress : st.progress = (pre.zip bitmaps).map fun y =>
    { fileId := y.1.1.fileId, haveBitmap := y.2.asBytes }
  own : (pre.map fun x => x.1.fileId).Nodup → ∀ y ∈ pre.zip bitmaps, ∃ fs,
    st.files.lookup y.1.1.fileId = some fs ∧ fs.bitmap = y.2
  totalBytes : st.totalBytes = (pre.map fun x => x.1.sizeBytes).sum
  resumedBytes : st.resumedBytes =
    (bitmaps.map fun b => UInt64.ofNat b.setCount * chunkSize.toUInt64).sum

theorem Answered.step {pre : List (FileEntry × EntryIo)} {bitmaps : List ChunkBitmap}
    {st st' : OfferState} {x : FileEntry × EntryIo} {c : Checked}
    (h : Answered chunkSize pre bitmaps st)
    (hopen : openEntry blake3 config chunkSize st x.1 c x.2 = .ok st') :
    ∃ b, Answered chunkSize (pre ++ [x]) (bitmaps ++ [b]) st' := by
  obtain ⟨sink, b, hfiles, haccepted, hprogress, htotal, hresumed⟩ := openEntry_answer hopen
  have hzip : (pre ++ [x]).zip (bitmaps ++ [b]) = pre.zip bitmaps ++ [(x, b)] := by
    rw [List.zip_append h.length_eq.symm]
    rfl
  refine ⟨b, by simp [h.length_eq], ?_, ?_, fun hnodup y hy => ?_, ?_, ?_⟩
  · rw [haccepted, h.accepted, List.map_append]
    rfl
  · rw [hprogress, h.progress, hzip, List.map_append]
    rfl
  · rw [List.map_append, List.nodup_append] at hnodup
    obtain ⟨hpre, -, hnew⟩ := hnodup
    rw [hzip] at hy
    rw [hfiles]
    rcases List.mem_append.1 hy with hy | hy
    · have hmem : y.1 ∈ pre := (List.of_mem_zip hy).1
      rw [AList.lookup_insert_ne (hnew _ (List.mem_map_of_mem hmem) _ (by simp))]
      exact h.own hpre y hy
    · obtain rfl := List.mem_singleton.1 hy
      exact ⟨_, AList.lookup_insert _, rfl⟩
  · rw [htotal, h.totalBytes, List.map_append, List.sum_append]
    simp
  · rw [hresumed, h.resumedBytes, List.map_append, List.sum_append]
    simp

theorem answered_offerLoop {disk : FileSystem} {xs : List (FileEntry × EntryIo)} {st : OfferState}
    (h : offerLoop blake3 config outputDir chunkSize (.init disk) xs = .ok st) :
    ∃ bitmaps, Answered chunkSize xs bitmaps st := by
  refine offerLoop_induct (P := fun pre st => ∃ bitmaps, Answered chunkSize pre bitmaps st)
    ⟨[], rfl, rfl, rfl, by simp, rfl, rfl⟩ ?_ h
  intro pre x s c s' hpre hcheck hopen
  obtain ⟨bitmaps, hb⟩ := hpre
  obtain ⟨b, hb'⟩ := hb.step hopen
  exact ⟨_, hb'⟩

end AetherLink
