import AetherLink.Lib.Tree
import AetherLink.Proofs.Paths

set_option autoImplicit false

/-! # Laying a manifest out on the disk

`validate` refuses a path that comes twice, as a string. On the disk a file also conflicts with a
directory: an entry's path must not be an ancestor of another's, which nothing checks. -/

namespace AetherLink

open Storage

/-- The components of a path that the gate does not drop. -/
def keptComponents (raw : String) : List String :=
  (pathComponents raw).filter fun c => c ≠ "" ∧ c ≠ "."

/-- `SinkFile::create` for each path in order, with its size; stops where it fails. Every call
    succeeds for which the names allow it; `reserved` says where the file system can reserve
    space. -/
def layOut (outputDir : FilePath) (chunkSize : UInt32) (reserved : String → Bool) :
    FileSystem → List (String × UInt64) → Except Error FileSystem
  | fs, [] => .ok fs
  | fs, (path, size) :: rest =>
      match SinkFile.create fs (outputDir ++ pathComponents path) size chunkSize
          (.opened (.done (reserved path))) with
      | (_, .error e) => .error e
      | (fs', .ok _) => layOut outputDir chunkSize reserved fs' rest

/-! ## One file -/

theorem preallocate_done (fs : FileSystem) (ino size : Nat) (reserved : Bool) :
    (preallocate fs ino size (.done reserved)).2 = .ok () := by
  unfold preallocate
  split <;> rfl

/-- With a valid chunk size, `create` fails exactly where the file cannot be made. -/
theorem SinkFile.create_iff {fs : FileSystem} {path : FilePath} {size : UInt64} {chunkSize : UInt32}
    {layout : ChunkLayout} (hlayout : ChunkLayout.new size chunkSize = .ok layout)
    (reserved : Bool) :
    (∃ fs' sink, create fs path size chunkSize (.opened (.done reserved)) = (fs', .ok sink)) ↔
      (fs.touch path).isSome = true := by
  simp only [create, Disk.touch]
  rcases hmk : fs.mkdirAll [] path.dropLast with ⟨made, okay⟩
  cases okay with
  | false => simp
  | true =>
      cases hopen : made.openRW path with
      | none => simp [hopen]
      | some r =>
          obtain ⟨opened, ino⟩ := r
          have hdone := preallocate_done opened ino size.toNat reserved
          rcases hpre : preallocate opened ino size.toNat (.done reserved) with ⟨disk, res⟩
          rw [hpre] at hdone
          cases hdone
          simp [hopen, hpre, hlayout]

/-- The names `create` leaves are those of making the file. -/
theorem SinkFile.create_node {fs fs' : FileSystem} {path : FilePath} {size : UInt64}
    {chunkSize : UInt32} {reserved : Bool} {sink : SinkFile}
    (h : create fs path size chunkSize (.opened (.done reserved)) = (fs', .ok sink)) :
    ∃ d i, fs.touch path = some (d, i) ∧ ∀ q, fs'.node q = d.node q := by
  simp only [create] at h
  rcases hmk : fs.mkdirAll [] path.dropLast with ⟨made, okay⟩
  rw [hmk] at h
  cases okay with
  | false => cases h
  | true =>
      cases hopen : made.openRW path with
      | none => simp [hopen] at h
      | some r =>
          obtain ⟨opened, ino⟩ := r
          refine ⟨opened, ino, by rw [Disk.touch, hmk, if_pos rfl, hopen], fun q => ?_⟩
          have hdone := preallocate_done opened ino size.toNat reserved
          have hdisk := preallocate_fst opened ino size.toNat (.done reserved)
          rcases hpre : preallocate opened ino size.toNat (.done reserved) with ⟨disk, res⟩
          rw [hpre] at hdone hdisk
          cases hdone
          simp only [hopen, hpre] at h
          split at h
          · cases h
          · cases h
            simp only at hdisk
            rw [hdisk, Disk.node_writes]

/-! ## All files -/

section LayOut

variable {outputDir : FilePath} {chunkSize : UInt32} {reserved : String → Bool}

/-- In a directory that holds some files already, more can be laid out exactly if they are apart
    from those and from each other. -/
theorem exists_layOut_iff
    (hvalid : ∀ size, ∃ layout, ChunkLayout.new size chunkSize = .ok layout) {fs : FileSystem}
    {done : List FilePath} (hlaid : Disk.Laid outputDir done fs) (hdone : [] ∉ done)
    (files : List (String × UInt64)) :
    (∃ fs', layOut outputDir chunkSize reserved fs files = .ok fs') ↔
      (∀ p ∈ files.map fun f => pathComponents f.1, ∀ q ∈ done, Apart q p) ∧
        (files.map fun f => pathComponents f.1).Pairwise Apart := by
  induction files generalizing fs done with
  | nil => simp [layOut]
  | cons f rest ih =>
      obtain ⟨path, size⟩ := f
      obtain ⟨layout, hlayout⟩ := hvalid size
      have hne := pathComponents_ne_nil path
      have hone := (SinkFile.create_iff hlayout (reserved path)).trans
        (hlaid.isSome_touch_iff hne hdone)
      rw [List.map_cons, List.forall_mem_cons, List.pairwise_cons]
      rcases hcreate : SinkFile.create fs (outputDir ++ pathComponents path) size chunkSize
        (.opened (.done (reserved path))) with ⟨fs₁, r⟩
      rw [hcreate] at hone
      cases r with
      | error e =>
          have hnot : ¬ ∀ q ∈ done, Apart q (pathComponents path) := by simpa using hone
          rw [layOut, hcreate]
          exact iff_of_false (by simp) fun h => hnot h.1.1
      | ok sink =>
          have hapart : ∀ q ∈ done, Apart q (pathComponents path) := hone.1 ⟨_, _, rfl⟩
          obtain ⟨d, i, htouch, hnode⟩ := SinkFile.create_node hcreate
          have hnext := ih ((hlaid.touch hne hapart htouch).congr hnode)
            (by simp [hdone, hne.symm])
          rw [layOut, hcreate, hnext]
          simp only [List.forall_mem_cons]
          constructor
          · rintro ⟨hall, hpair⟩
            exact ⟨⟨hapart, fun p hp => (hall p hp).2⟩, fun p hp => (hall p hp).1, hpair⟩
          · rintro ⟨⟨-, hold⟩, hnew, hpair⟩
            exact ⟨fun p hp => ⟨hnew p hp, hold p hp⟩, hpair⟩

end LayOut

/-! ## Validated manifests -/

theorem pathComponents_sanitized {raw s : String} (h : sanitizeRelativePath raw = .ok s) :
    pathComponents s = keptComponents raw := by
  obtain ⟨parts, -, -, hkept, rfl⟩ := sanitizeRelativePath_eq_ok_iff.1 h
  rw [keptComponents, hkept.pathComponents_filter, pathComponents_ofList_joinParts hkept]

theorem pathComponents_validated {m : Manifest} {paths : List String} (h : m.validate = .ok paths) :
    paths.map pathComponents = m.files.map fun f => keptComponents f.relativePath := by
  unfold Manifest.validate at h
  split at h
  · cases h
  · split at h
    · cases h
    · obtain ⟨hmap, -⟩ := Manifest.validateFiles_ok_iff.1 h
      generalize m.files = files at hmap
      clear h
      induction files generalizing paths with
      | nil => simp_all
      | cons f rest ih =>
          cases paths with
          | nil => cases hmap
          | cons path paths =>
              simp only [List.map_cons, List.cons.injEq] at hmap ⊢
              exact ⟨pathComponents_sanitized hmap.1, ih hmap.2⟩

theorem Manifest.validate_chunkSize {m : Manifest} {paths : List String}
    (h : m.validate = .ok paths) (size : UInt64) :
    ∃ layout, ChunkLayout.new size m.chunkSize = .ok layout := by
  unfold Manifest.validate at h
  split at h
  · cases h
  · split at h
    · cases h
    · next layout hlayout => exact ChunkLayout.exists_new_of_new hlayout size

/-- **When a validated manifest can be laid out** in an empty directory: exactly if no entry's path,
    its empty and `.` components dropped, is a proper ancestor of another's; and this is when no
    returned path is one. -/
theorem layOut_ok_iff {m : Manifest} {paths : List String} (h : m.validate = .ok paths)
    {fs : FileSystem} {outputDir : FilePath} (hempty : fs.EmptyDirectory outputDir)
    (reserved : String → Bool) :
    ((∃ fs', layOut outputDir m.chunkSize reserved fs
        (paths.zip (m.files.map FileMetadata.sizeBytes)) = .ok fs') ↔
      ∀ f ∈ m.files, ∀ g ∈ m.files,
        ¬ Above (keptComponents f.relativePath) (keptComponents g.relativePath)) ∧
    ((∀ a ∈ paths, ∀ b ∈ paths, ¬ Above (pathComponents a) (pathComponents b)) ↔
      ∀ f ∈ m.files, ∀ g ∈ m.files,
        ¬ Above (keptComponents f.relativePath) (keptComponents g.relativePath)) := by
  have hcomps := pathComponents_validated h
  have hlen : paths.length = m.files.length := by
    simpa using congrArg List.length hcomps
  have hzip : (paths.zip (m.files.map FileMetadata.sizeBytes)).map (fun f => pathComponents f.1)
      = paths.map pathComponents := by
    have hfst : (paths.zip (m.files.map FileMetadata.sizeBytes)).map Prod.fst = paths :=
      List.map_fst_zip (by simp [hlen])
    rw [← congrArg (List.map pathComponents) hfst, List.map_map]
    rfl
  have hpaths : (∀ a ∈ paths, ∀ b ∈ paths, ¬ Above (pathComponents a) (pathComponents b)) ↔
      ∀ f ∈ m.files, ∀ g ∈ m.files,
        ¬ Above (keptComponents f.relativePath) (keptComponents g.relativePath) := by
    have hmem : (∀ p ∈ paths.map pathComponents, ∀ q ∈ paths.map pathComponents, ¬ Above p q) ↔
        ∀ p ∈ m.files.map (fun f => keptComponents f.relativePath),
          ∀ q ∈ m.files.map (fun f => keptComponents f.relativePath), ¬ Above p q := by
      rw [hcomps]
    simpa only [List.forall_mem_map] using hmem
  refine ⟨?_, hpaths⟩
  rw [exists_layOut_iff (Manifest.validate_chunkSize h) hempty.laid (by simp), hzip,
    pairwise_apart_iff, ← hpaths]
  simp only [List.forall_mem_map]
  exact and_iff_right (by simp)

/-- An empty directory `out`. -/
def outDirectory : FileSystem :=
  Disk.empty.mkdir ["out"]

theorem emptyDirectory_outDirectory : outDirectory.EmptyDirectory ["out"] where
  here := fun q hq hne => by
    obtain ⟨r, rfl, hr⟩ := (List.prefix_cons_iff.1 hq).resolve_left hne
    rw [List.prefix_nil.1 hr, outDirectory, Disk.node_mkdir, if_pos rfl]
  below := fun q hq => by
    rw [outDirectory, Disk.node_mkdir, if_neg (by simpa using hq)]
    rfl

/-- Files of one byte under these paths, numbered in order. -/
def oneByteManifest (paths : List String) : Manifest :=
  { chunkSize := 65536
    files := paths.zipIdx.map fun x =>
      { fileId := UInt64.ofNat x.2, relativePath := x.1, sizeBytes := 1 } }

/-- The same name as a file and, one directory down, as another. -/
theorem layOut_ok_iff_sameName :
    (∃ fs', layOut ["out"] (oneByteManifest ["a", "b//a"]).chunkSize (fun _ => true) outDirectory
        (["a", "b/a"].zip ((oneByteManifest ["a", "b//a"]).files.map FileMetadata.sizeBytes))
          = .ok fs') ∧
      ∀ a ∈ ["a", "b/a"], ∀ b ∈ ["a", "b/a"], ¬ Above (pathComponents a) (pathComponents b) := by
  have hvalid : (oneByteManifest ["a", "b//a"]).validate = .ok ["a", "b/a"] := by decide +kernel
  obtain ⟨hiff, hpaths⟩ := layOut_ok_iff hvalid emptyDirectory_outDirectory fun _ => true
  have hapart : ∀ f ∈ (oneByteManifest ["a", "b//a"]).files,
      ∀ g ∈ (oneByteManifest ["a", "b//a"]).files,
        ¬ Above (keptComponents f.relativePath) (keptComponents g.relativePath) := by
    decide +kernel
  exact ⟨hiff.2 hapart, hpaths.2 hapart⟩

/-- `a` and `a/b` pass validation, and the second cannot be created where the first is a file. -/
theorem nested_manifest_cannot_be_laid_out :
    ¬ ∀ (m : Manifest) (paths : List String) (fs : FileSystem) (outputDir : FilePath)
      (reserved : String → Bool), m.validate = .ok paths → fs.EmptyDirectory outputDir →
      ∃ fs', layOut outputDir m.chunkSize reserved fs
        (paths.zip (m.files.map FileMetadata.sizeBytes)) = .ok fs' := by
  intro hclaim
  obtain ⟨fs', hfs'⟩ := hclaim (oneByteManifest ["a", "a/b"]) ["a", "a/b"] outDirectory ["out"]
    (fun _ => true) (by decide +kernel) emptyDirectory_outDirectory
  have hfails : (layOut ["out"] (oneByteManifest ["a", "a/b"]).chunkSize (fun _ => true) outDirectory
      (["a", "a/b"].zip ((oneByteManifest ["a", "a/b"]).files.map FileMetadata.sizeBytes))).isOk
        = false := by decide +kernel
  rw [hfs'] at hfails
  cases hfails

end AetherLink
