import AetherLink.Proofs.Names
import AetherLink.Proofs.Paths

set_option autoImplicit false

/-! # Records where names are capped

The gate refuses a component above 255 bytes, because most file systems do. The record of a file is
`.aether_state` behind its name, and the temporary file of the record `.tmp`, and these are what a
checkpoint creates: an accepted name may be too long for its own record. -/

namespace AetherLink

open Storage

/-- The last component of the path is within the cap. -/
def NameFits (path : FilePath) : Prop :=
  (Text.encode (fileName path).toList).length ≤ MAX_COMPONENT_LEN

instance (path : FilePath) : Decidable (NameFits path) :=
  inferInstanceAs (Decidable (_ ≤ _))

/-- A step of a checkpoint on a file system that caps names: a call that would create or rename to
    an over-long one does not succeed. -/
def checkpointStepCapped (blake3 : Blake3) (disk : FileSystem) (s : FileState) (pc : CheckpointPc)
    (io : IoAct) : Option (CheckpointNext × Effect) :=
  (checkpointStep blake3 disk s pc io).filter fun r => ∀ q ∈ r.2.recordPaths, NameFits q

/-- The last component of a path that the gate does not drop. -/
def lastComponent (raw : String) : List Char :=
  ((raw.toList.splitOn '/').filter (! isRedundant ·)).getLast?.getD []

/-! ## The names -/

theorem fileName_dest (outputDir : FilePath) {raw s : String} (h : sanitizeRelativePath raw = .ok s) :
    (fileName (outputDir ++ pathComponents s)).toList = lastComponent raw := by
  obtain ⟨parts, -, -, hkept, rfl⟩ := sanitizeRelativePath_eq_ok_iff.1 h
  have hne : parts.map String.ofList ≠ [] := fun hnil => hkept.ne_nil (List.map_eq_nil_iff.1 hnil)
  rw [pathComponents_ofList_joinParts hkept, fileName, List.getLastD_eq_getLast?,
    List.getLast?_append_of_ne_nil _ hne, List.getLast?_map, lastComponent, ← hkept.parts_eq,
    List.getLast?_eq_some_getLast hkept.ne_nil]
  exact String.toList_ofList

/-- A suffix takes its own length from the cap. -/
theorem nameFits_withFileName (p : FilePath) (name suffix : String) :
    NameFits (withFileName p (name ++ suffix)) ↔
      (Text.encode name.toList).length + (Text.encode suffix.toList).length ≤ MAX_COMPONENT_LEN := by
  rw [NameFits, fileName_withFileName, String.toList_append, Text.encode_append, List.length_append]

theorem nameFits_statePath (p : FilePath) :
    NameFits (statePath p) ↔ (Text.encode (fileName p).toList).length + 13 ≤ MAX_COMPONENT_LEN :=
  nameFits_withFileName p (fileName p) ".aether_state"

theorem nameFits_tmpPath {p : FilePath} (hp : Named p) :
    NameFits (tmpPath p) ↔ (Text.encode (fileName p).toList).length + 4 ≤ MAX_COMPONENT_LEN := by
  rw [tmpPath_eq hp.2]
  exact nameFits_withFileName p (fileName p) ".tmp"

/-- The record has the longer name of the two. -/
theorem nameFits_record {p : FilePath} (hp : Named p) :
    NameFits (statePath p) ∧ NameFits (tmpPath p) ↔
      (Text.encode (fileName p).toList).length + 13 ≤ MAX_COMPONENT_LEN := by
  rw [nameFits_statePath, nameFits_tmpPath hp]
  omega

/-! ## Checkpoints -/

section Steps

variable {blake3 : Blake3} {st : FileState}

/-- The cap does not come in where both names are within it. -/
theorem checkpointStepCapped_of_fits
    (hfits : NameFits (statePath st.sink.path) ∧ NameFits (tmpPath st.sink.path))
    (disk : FileSystem) (pc : CheckpointPc) (io : IoAct) :
    checkpointStepCapped blake3 disk st pc io = checkpointStep blake3 disk st pc io := by
  unfold checkpointStepCapped
  cases hstep : checkpointStep blake3 disk st pc io with
  | none => rfl
  | some r =>
      refine Option.filter_some_pos (decide_eq_true fun q hq => ?_)
      rcases (checkpointStep_moves hstep).recordPaths hq with rfl | rfl
      · exact hfits.1
      · exact hfits.2

/-- On a disk that has just the temporary file, the last step of a checkpoint succeeds. -/
theorem checkpointStep_rename (hst : Named st.sink.path) (snapshot : ChunkBitmap) :
    checkpointStep blake3 (Disk.empty.mkfile (tmpPath st.sink.path)) st (.renameTmp snapshot 0) .next
      = some (.done (.ok ()), .rename (tmpPath st.sink.path) (statePath st.sink.path)) := by
  have hrename : ((Disk.empty.mkfile (tmpPath st.sink.path)).rename (tmpPath st.sink.path)
      (statePath st.sink.path)).isSome = true := by
    refine Disk.isSome_rename (i := 0) ?_ ?_
    · rw [Disk.node_mkfile, if_pos rfl]
      rfl
    · rw [Disk.node_mkfile, if_neg (statePath_ne_tmpPath _ hst.2)]
      intro hdir
      cases hdir
  obtain ⟨disk', hdisk'⟩ := Option.isSome_iff_exists.1 hrename
  simp only [checkpointStep, hdisk']

/-- A checkpoint that has anything to record ends well only through the rename. -/
theorem eq_rename_of_done {disk : FileSystem} {pc : CheckpointPc} {io : IoAct} {e : Effect}
    (h : checkpointStep blake3 disk st pc io = some (.done (.ok ()), e)) :
    st.bitmap.setCount = 0 ∨ e = .rename (tmpPath st.sink.path) (statePath st.sink.path) := by
  cases checkpointStep_moves h with
  | nothingSet hz => exact Or.inl hz
  | renames snapshot tmp hr => exact Or.inr rfl

end Steps

/-- **When an accepted name can be checkpointed.** The names of its record and of the temporary file
    are within the cap exactly if the name has 13 bytes to spare. Then, and only then, a checkpoint
    of the file goes on a file system with that cap as on any; otherwise none that has a chunk to
    record succeeds. -/
theorem checkpoint_names_fit_iff {raw s : String} (h : sanitizeRelativePath raw = .ok s)
    (outputDir : FilePath) :
    (NameFits (statePath (outputDir ++ pathComponents s)) ∧
        NameFits (tmpPath (outputDir ++ pathComponents s)) ↔
      (Text.encode (lastComponent raw)).length + 13 ≤ MAX_COMPONENT_LEN) ∧
    ∀ (blake3 : Blake3) (st : FileState), st.sink.path = outputDir ++ pathComponents s →
      ((∀ disk pc io,
          checkpointStepCapped blake3 disk st pc io = checkpointStep blake3 disk st pc io) ↔
        (Text.encode (lastComponent raw)).length + 13 ≤ MAX_COMPONENT_LEN) ∧
      (¬ (Text.encode (lastComponent raw)).length + 13 ≤ MAX_COMPONENT_LEN → ∀ disk pc io e,
        checkpointStepCapped blake3 disk st pc io = some (.done (.ok ()), e) →
        st.bitmap.setCount = 0) := by
  have hnamed : Named (outputDir ++ pathComponents s) := named_dest outputDir h
  have hnames := nameFits_record hnamed
  rw [fileName_dest outputDir h] at hnames
  refine ⟨hnames, fun blake3 st hst => ?_⟩
  rw [← hnames, ← hst]
  rw [← hst] at hnamed
  refine ⟨⟨fun hsame => ?_, fun hfits disk pc io => checkpointStepCapped_of_fits hfits disk pc io⟩,
    fun hover disk pc io e hdone => ?_⟩
  · -- the rename goes through only where both names are within the cap
    have hrename := hsame (Disk.empty.mkfile (tmpPath st.sink.path)) (.renameTmp st.bitmap 0) .next
    rw [checkpointStepCapped, checkpointStep_rename hnamed, Option.filter_eq_some_iff] at hrename
    have hfits := of_decide_eq_true hrename.2
    exact ⟨hfits _ (by simp [Effect.recordPaths]), hfits _ (by simp [Effect.recordPaths])⟩
  · rw [checkpointStepCapped, Option.filter_eq_some_iff] at hdone
    refine (eq_rename_of_done hdone.1).resolve_right ?_
    rintro rfl
    have hfits := of_decide_eq_true hdone.2
    exact hover ⟨hfits _ (by simp [Effect.recordPaths]), hfits _ (by simp [Effect.recordPaths])⟩

theorem checkpoint_names_fit_iff_short :
    NameFits (statePath ["out", "a"]) ∧ NameFits (tmpPath ["out", "a"]) ∧
      ∀ (blake3 : Blake3) (st : FileState), st.sink.path = ["out", "a"] →
        ∀ disk pc io, checkpointStepCapped blake3 disk st pc io = checkpointStep blake3 disk st pc io := by
  obtain ⟨hnames, hsteps⟩ :=
    checkpoint_names_fit_iff (s := "a") (show sanitizeRelativePath "a" = .ok "a" by decide +kernel)
      ["out"]
  have hroom : (Text.encode (lastComponent "a")).length + 13 ≤ MAX_COMPONENT_LEN := by
    decide +kernel
  obtain ⟨hstate, htmp⟩ := hnames.2 hroom
  exact ⟨hstate, htmp, fun blake3 st hst => (hsteps blake3 st hst).1.2 hroom⟩

/-- A path of one component that the gate takes as it is. -/
theorem sanitizeRelativePath_single {cs : List Char} (h : sanitizeParts cs = .ok [cs]) :
    sanitizeRelativePath (String.ofList cs) = .ok (String.ofList cs) := by
  rw [sanitizeRelativePath, String.toList_ofList, h]
  simp only [joinParts, List.intercalate_singleton]

/-- A name of 255 bytes, the longest the gate lets through. -/
def longestName : String :=
  String.ofList (List.replicate 255 'x')

/-- The longest accepted name has room neither for its record nor for the temporary file. -/
theorem longest_name_cannot_be_checkpointed :
    sanitizeRelativePath longestName = .ok longestName ∧
      ¬ NameFits (statePath ["out", longestName]) ∧ ¬ NameFits (tmpPath ["out", longestName]) := by
  have hbytes : (Text.encode (fileName ["out", longestName]).toList).length = 255 := by
    have hlist : (fileName ["out", longestName]).toList = List.replicate 255 'x' :=
      String.toList_ofList
    rw [hlist]
    decide +kernel
  have hname : Named ["out", longestName] := by
    refine ⟨List.cons_ne_nil _ _, fun hempty => ?_⟩
    rw [hempty] at hbytes
    cases hbytes
  refine ⟨sanitizeRelativePath_single (by decide +kernel), ?_, ?_⟩
  · rw [nameFits_statePath, hbytes]
    decide
  · rw [nameFits_tmpPath hname, hbytes]
    decide

end AetherLink
