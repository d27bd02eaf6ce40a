import AetherLink.Proofs.Names

set_option autoImplicit false

/-! # The offer check and the manifest gate

`Manifest::validate` is the protocol crate's check on what a peer offers; `run` does not call it and
has checks of its own in its loop. What `run` accepts passes the gate exactly where the loop leaves
nothing out: no more files than the cap, distinct ids, and, where there is no file, a chunk size that
is one. -/

namespace AetherLink

open Storage

/-- The manifest that says what the offer says. -/
def ManifestOffer.manifest (o : ManifestOffer) : Manifest :=
  { chunkSize := o.chunkSize
    files := o.files.map fun e =>
      { fileId := e.fileId, relativePath := e.relativePath, sizeBytes := e.sizeBytes } }

/-- Every path that passed the gate is the one `run` uses for its entry. -/
def ManifestOffer.UsesPaths (o : ManifestOffer) (outputDir : FilePath) (files : Files)
    (paths : List String) : Prop :=
  ∀ (i : Nat) (path : String) (entry : FileEntry), paths[i]? = some path →
    o.files[i]? = some entry → ∃ fs, files.lookup entry.fileId = some fs ∧
      fs.sink.path = outputDir ++ pathComponents path

section Accepted

variable {blake3 : Blake3} {config : Config} {outputDir : FilePath} {disk : FileSystem}
  {o : ManifestOffer} {ios : List EntryIo} {st : OfferState}

/-- The sanitized path of an entry; empty where there is none. -/
def FileEntry.safePath (e : FileEntry) : String :=
  (sanitizeRelativePath e.relativePath).toOption.getD ""

/-- The paths of an accepted offer sanitize, to different paths. -/
theorem Accepted.paths {chunkSize : UInt32} {entries : List (FileEntry × EntryIo)}
    (h : Accepted blake3 outputDir chunkSize entries st) :
    (∀ x ∈ entries, sanitizeRelativePath x.1.relativePath = .ok x.1.safePath) ∧
      (entries.map fun x => x.1.safePath).Nodup := by
  have hsafe : ∀ x ∈ entries, sanitizeRelativePath x.1.relativePath = .ok x.1.safePath := by
    intro x hx
    obtain ⟨s, -, hs⟩ := h.seen x hx
    rw [FileEntry.safePath, hs]
    rfl
  refine ⟨hsafe, ?_⟩
  rw [List.Nodup, List.pairwise_map]
  refine h.distinct.imp_of_mem fun {x y} hx hy hne heq => hne ?_
  rw [hsafe x hx, hsafe y hy, heq]

/-- **The offer check agrees with the manifest gate** exactly if the offer has no more files than the
    cap, its ids are distinct and, where it has no file, its chunk size is valid. -/
theorem offer_check_agrees_iff (hios : ios.length = o.files.length)
    (hoffer : offerLoop blake3 config outputDir o.chunkSize (.init disk) (o.files.zip ios)
      = .ok st) :
    (∃ paths, o.manifest.validate = .ok paths ∧ o.UsesPaths outputDir st.files paths) ↔
      o.files.length ≤ MAX_FILES_PER_MANIFEST ∧ (o.files.map FileEntry.fileId).Nodup ∧
        (o.files = [] → ∃ layout, ChunkLayout.new 0 o.chunkSize = .ok layout) := by
  have hacc := accepted_offerLoop hoffer
  have hfst : (o.files.zip ios).map Prod.fst = o.files := List.map_fst_zip hios.ge
  have hmap : ∀ {α : Type} (f : FileEntry → α),
      (o.files.zip ios).map (fun x => f x.1) = o.files.map f := by
    intro α f
    nth_rewrite 2 [← hfst]
    rw [List.map_map]
    rfl
  have hmem : ∀ e ∈ o.files, ∃ x ∈ o.files.zip ios, x.1 = e := by
    intro e he
    rw [← hfst] at he
    exact List.mem_map.1 he
  have hids : o.manifest.files.map FileMetadata.fileId = o.files.map FileEntry.fileId := by
    simp [ManifestOffer.manifest]
  constructor
  · rintro ⟨paths, hvalidate, -⟩
    unfold Manifest.validate at hvalidate
    split at hvalidate
    · cases hvalidate
    · next hcap =>
        split at hvalidate
        · cases hvalidate
        · next layout hlayout =>
            have hok := Manifest.validateFiles_ok_iff.1 hvalidate
            refine ⟨?_, hids ▸ hok.2.1, fun _ => ⟨layout, hlayout⟩⟩
            simpa [ManifestOffer.manifest] using hcap
  · rintro ⟨hcap, hnodup, hchunk⟩
    obtain ⟨hsafe, hdistinct⟩ := hacc.paths
    have hkept := hacc.kept (by rwa [hmap FileEntry.fileId])
    -- an accepted entry has shown the chunk size to be valid
    have hlayout : ∃ layout, ChunkLayout.new 0 o.chunkSize = .ok layout := by
      by_cases hnil : o.files = []
      · exact hchunk hnil
      · obtain ⟨e, he⟩ := List.exists_mem_of_ne_nil _ hnil
        obtain ⟨x, hx, -⟩ := hmem e he
        obtain ⟨fs, -, hserves⟩ := hkept x hx
        exact ChunkLayout.exists_new_of_new hserves.layout_ok 0
    obtain ⟨layout, hlayout⟩ := hlayout
    refine ⟨o.files.map FileEntry.safePath, ?_, ?_⟩
    · have hlen : ¬ MAX_FILES_PER_MANIFEST < o.manifest.files.length := by
        simpa [ManifestOffer.manifest] using hcap
      have hchunkSize : o.manifest.chunkSize = o.chunkSize := rfl
      rw [Manifest.validate, if_neg hlen, hchunkSize, hlayout]
      refine Manifest.validateFiles_ok_iff.2 ⟨?_, hids ▸ hnodup, by simp, ?_, by simp⟩
      · rw [ManifestOffer.manifest, List.map_map, List.map_map]
        refine List.map_congr_left fun e he => ?_
        obtain ⟨x, hx, rfl⟩ := hmem e he
        exact hsafe x hx
      · rwa [hmap FileEntry.safePath] at hdistinct
    · intro i path entry hpath hentry
      rw [List.getElem?_map, hentry, Option.map_some, Option.some.injEq] at hpath
      obtain ⟨x, hx, rfl⟩ := hmem entry (List.mem_of_getElem? hentry)
      obtain ⟨fs, hfs, hserves⟩ := hkept x hx
      obtain ⟨safePath, hsan, hdest⟩ := hserves.path
      rw [hsafe x hx, Except.ok.injEq] at hsan
      exact ⟨fs, hfs, by rw [hdest, ← hpath, hsan]⟩

end Accepted

def twoFileManifest : ManifestOffer :=
  { chunkSize := 65536, files := twoFileOffer.map Prod.fst }

/-- Two files under two ids pass the gate too. -/
theorem offer_check_agrees_iff_twoFile :
    ∃ (st : OfferState) (paths : List String), twoFileManifest.manifest.validate = .ok paths ∧
      twoFileManifest.UsesPaths ["out"] st.files paths := by
  have hany : (offerLoop shortFileHash plainConfig ["out"] 65536 (.init .empty)
      (twoFileManifest.files.zip [allCallsSucceed, allCallsSucceed])).toOption.any (fun _ => true)
        = true := by
    decide +kernel
  obtain ⟨st, hst, -⟩ := exists_ok_of_any hany
  exact ⟨st, (offer_check_agrees_iff rfl hst).2
    ⟨by decide, by decide, fun hnil => absurd hnil (by decide)⟩⟩

/-- Two files under one id are accepted, and do not pass the gate. -/
theorem accepted_offer_fails_gate :
    ¬ ∀ (blake3 : Blake3) (config : Config) (outputDir : FilePath) (disk : FileSystem)
      (o : ManifestOffer) (ios : List EntryIo) (st : OfferState), ios.length = o.files.length →
      offerLoop blake3 config outputDir o.chunkSize (.init disk) (o.files.zip ios) = .ok st →
      ∃ paths, o.manifest.validate = .ok paths := by
  intro hclaim
  obtain ⟨st, -, -, hst, -, -⟩ := runs_duplicateIdOffer
  obtain ⟨paths, hpaths⟩ := hclaim shortFileHash plainConfig ["out"] .empty
    { chunkSize := 65536, files := duplicateIdOffer.map Prod.fst }
    (duplicateIdOffer.map Prod.snd) st rfl hst
  have hgate : ((⟨65536, duplicateIdOffer.map Prod.fst⟩ : ManifestOffer).manifest.validate)
      = .error (.duplicateFileId 0) := by decide +kernel
  rw [hgate] at hpaths
  cases hpaths

end AetherLink
