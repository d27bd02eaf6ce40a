import AetherLink.Lib.Text
import AetherLink.Proto.Chunk
import Mathlib.Data.List.Basic

set_option autoImplicit false

/-! # The gate on peer-chosen paths

The receiver writes files under paths the sender chooses; `sanitizeRelativePath` is the only thing
between the two. Strings are Unicode; the lengths the gate checks are UTF-8 byte lengths. -/

namespace AetherLink

def MAX_COMPONENT_LEN : Nat := 255
def MAX_PATH_LEN : Nat := 1024
def MAX_FILES_PER_MANIFEST : Nat := 20000

/-- `char::is_control`: the Unicode category Cc. -/
def isControl (c : Char) : Bool :=
  c.toNat < 0x20 || (0x7F ≤ c.toNat && c.toNat ≤ 0x9F)

def RESERVED : List (List Char) :=
  ["CON", "PRN", "AUX", "NUL", "COM1", "COM2", "COM3", "COM4", "COM5", "COM6", "COM7", "COM8",
    "COM9", "LPT1", "LPT2", "LPT3", "LPT4", "LPT5", "LPT6", "LPT7", "LPT8", "LPT9"].map
    String.toList

/-- `str::eq_ignore_ascii_case`. -/
def eqIgnoreAsciiCase (a b : List Char) : Bool :=
  a.map Char.toLower == b.map Char.toLower

/-- Windows reserved device names, compared against the part before the first dot. -/
def isReservedDeviceName (component : List Char) : Bool :=
  let stem := component.takeWhile (· ≠ '.')
  RESERVED.any fun r => eqIgnoreAsciiCase r stem

/-- The loop over the components, keeping those that are neither empty nor `.`; the error is the
    reason. -/
def sanitizeComponents : List (List Char) → Except String (List (List Char))
  | [] => .ok []
  | c :: cs =>
      if c = [] ∨ c = ['.'] then sanitizeComponents cs
      else if c = ['.', '.'] then .error "contains a parent-directory traversal"
      else if MAX_COMPONENT_LEN < (Text.encode c).length then .error "has an over-long component"
      else if c.getLast? = some '.' ∨ c.getLast? = some ' ' then
        .error "has a component ending in a dot or space"
      else if isReservedDeviceName c then .error "uses a reserved device name"
      else match sanitizeComponents cs with
        | .error why => .error why
        | .ok parts => .ok (c :: parts)

/-- Reduces a peer-supplied path to something safe to join to a local directory: the components in
    order, or the reason it is refused. -/
def sanitizeParts (raw : List Char) : Except String (List (List Char)) :=
  if raw = [] then .error "empty"
  else if MAX_PATH_LEN < (Text.encode raw).length then .error "exceeds maximum length"
  else if '\x00' ∈ raw then .error "contains a NUL byte"
  else if raw.any isControl then .error "contains a control character"
  else if '\\' ∈ raw then .error "contains a backslash separator"
  else if raw.head? = some '/' then .error "is absolute"
  else if 2 ≤ (Text.encode raw).length ∧ (Text.encode raw)[1]? = some 0x3A then
    .error "contains a drive letter"
  else match sanitizeComponents (raw.splitOn '/') with
    | .error why => .error why
    | .ok [] => .error "resolves to nothing"
    | .ok parts => .ok parts

/-- `parts.join("/")`. -/
def joinParts (parts : List (List Char)) : List Char :=
  ['/'].intercalate parts

def sanitizeRelativePath (raw : String) : Except Proto.Error String :=
  match sanitizeParts raw.toList with
  | .error why => .error (.unsafePath raw why)
  | .ok parts => .ok (String.ofList (joinParts parts))

/-! ## Manifests -/

/-- What `validate` looks at of an entry, and the size its layout goes by. -/
structure FileMetadata where
  fileId : UInt64
  relativePath : String
  sizeBytes : UInt64
  deriving DecidableEq, Repr

structure Manifest where
  chunkSize : UInt32
  files : List FileMetadata
  deriving DecidableEq, Repr

namespace Manifest

/-- The loop of `validate`, with the ids and the paths seen so far: the sanitized paths in order. -/
def validateFiles : List FileMetadata → List UInt64 → List String →
    Except Proto.Error (List String)
  | [], _, _ => .ok []
  | f :: rest, seenIds, seenPaths =>
      if f.fileId ∈ seenIds then .error (.duplicateFileId f.fileId)
      else match sanitizeRelativePath f.relativePath with
        | .error e => .error e
        | .ok path =>
            if path ∈ seenPaths then .error (.duplicatePath path)
            else match validateFiles rest (f.fileId :: seenIds) (path :: seenPaths) with
              | .error e => .error e
              | .ok paths => .ok (path :: paths)

/-- Validates a manifest received from a peer. -/
def validate (m : Manifest) : Except Proto.Error (List String) :=
  if MAX_FILES_PER_MANIFEST < m.files.length then .error (.manifestTooLarge m.files.length)
  else match ChunkLayout.new 0 m.chunkSize with
    | .error e => .error e
    | .ok _ => validateFiles m.files [] []

/-- **When the loop accepts**: every path sanitizes, and no id and no sanitized path comes twice. -/
theorem validateFiles_ok_iff {files : List FileMetadata} {seenIds : List UInt64}
    {seenPaths paths : List String} :
    validateFiles files seenIds seenPaths = .ok paths ↔
      files.map (fun f => sanitizeRelativePath f.relativePath) = paths.map Except.ok ∧
        (files.map FileMetadata.fileId).Nodup ∧ (∀ f ∈ files, f.fileId ∉ seenIds) ∧
        paths.Nodup ∧ ∀ path ∈ paths, path ∉ seenPaths := by
  induction files generalizing seenIds seenPaths paths with
  | nil =>
      simp only [validateFiles, Except.ok.injEq, List.map_nil]
      constructor
      · rintro rfl
        simp
      · rintro ⟨hmap, -⟩
        exact (List.map_eq_nil_iff.1 hmap.symm).symm
  | cons f rest ih =>
      constructor
      · intro h
        rw [validateFiles] at h
        split at h
        · cases h
        · next hid =>
            split at h
            · cases h
            · next path hpath =>
                split at h
                · cases h
                · next hseen =>
                    split at h
                    · cases h
                    · next out hout =>
                        obtain ⟨hmap, hids, hfresh, hnodup, hnew⟩ := ih.1 hout
                        cases h
                        simp only [List.map_cons, List.nodup_cons, List.forall_mem_cons, hpath, hmap]
                        refine ⟨trivial, ⟨fun hmem => ?_, hids⟩, ⟨hid, fun g hg hgs => ?_⟩,
                          ⟨fun hmem => hnew path hmem List.mem_cons_self, hnodup⟩, hseen,
                          fun q hq hqs => hnew q hq (List.mem_cons_of_mem _ hqs)⟩
                        · obtain ⟨g, hg, heq⟩ := List.mem_map.1 hmem
                          exact hfresh g hg (heq ▸ List.mem_cons_self)
                        · exact hfresh g hg (List.mem_cons_of_mem _ hgs)
      · rintro ⟨hmap, hids, hfresh, hnodup, hnew⟩
        cases paths with
        | nil => cases hmap
        | cons path out =>
            simp only [List.map_cons, List.cons.injEq, List.nodup_cons, List.forall_mem_cons]
              at hmap hids hfresh hnodup hnew
            have hrest : validateFiles rest (f.fileId :: seenIds) (path :: seenPaths) = .ok out := by
              refine ih.2 ⟨hmap.2, hids.2, fun g hg hgs => ?_, hnodup.2, fun q hq hqs => ?_⟩
              · rcases List.mem_cons.1 hgs with heq | hgs
                · exact hids.1 (heq ▸ List.mem_map_of_mem hg)
                · exact hfresh.2 g hg hgs
              · rcases List.mem_cons.1 hqs with rfl | hqs
                · exact hnodup.1 hq
                · exact hnew.2 q hq hqs
            rw [validateFiles, if_neg hfresh.1, hmap.1]
            simp only [if_neg hnew.1, hrest]

end Manifest

/-! ## What the gate lets through -/

theorem sanitizeComponents_sublist {cs parts : List (List Char)}
    (h : sanitizeComponents cs = .ok parts) : parts.Sublist cs := by
  induction cs generalizing parts with
  | nil =>
      rw [sanitizeComponents, Except.ok.injEq] at h
      exact h ▸ List.Sublist.refl _
  | cons c cs ih =>
      rw [sanitizeComponents] at h
      split at h
      · exact (ih h).cons c
      · iterate 4 (split at h; · cases h)
        split at h
        · cases h
        · next ps hps =>
            rw [Except.ok.injEq] at h
            exact h ▸ (ih hps).cons_cons c

theorem ne_nil_of_mem_sanitizeComponents {cs parts : List (List Char)}
    (h : sanitizeComponents cs = .ok parts) : ∀ c ∈ parts, c ≠ [] := by
  induction cs generalizing parts with
  | nil =>
      rw [sanitizeComponents, Except.ok.injEq] at h
      simp [← h]
  | cons c cs ih =>
      rw [sanitizeComponents] at h
      split at h
      · exact ih h
      · next hkeep =>
          iterate 4 (split at h; · cases h)
          split at h
          · cases h
          · next ps hps =>
              rw [Except.ok.injEq] at h
              subst h
              intro x hx
              rcases List.mem_cons.1 hx with rfl | hx
              · exact fun hn => hkeep (Or.inl hn)
              · exact ih hps x hx

theorem not_mem_of_mem_splitOn {cs c : List Char} (h : c ∈ cs.splitOn '/') : '/' ∉ c := by
  induction cs generalizing c with
  | nil =>
      rw [List.splitOn_nil, List.mem_singleton] at h
      simp [h]
  | cons x xs ih =>
      rw [List.splitOn_cons_eq_if_modifyHead] at h
      split at h
      · rcases List.mem_cons.1 h with rfl | h
        · simp
        · exact ih h
      · next hx =>
          obtain ⟨y, ys, hys⟩ := List.exists_cons_of_ne_nil (List.splitOn_ne_nil '/' xs)
          rw [hys, List.modifyHead_cons] at h
          rcases List.mem_cons.1 h with rfl | h
          · have hy : '/' ∉ y := ih (hys ▸ List.mem_cons_self)
            simp only [List.mem_cons, not_or]
            exact ⟨fun he => hx (beq_iff_eq.2 he.symm), hy⟩
          · exact ih (hys ▸ List.mem_cons_of_mem _ h)

theorem sanitizeParts_ok {raw : List Char} {parts : List (List Char)}
    (h : sanitizeParts raw = .ok parts) :
    parts ≠ [] ∧ sanitizeComponents (raw.splitOn '/') = .ok parts := by
  unfold sanitizeParts at h
  iterate 7 (split at h; · cases h)
  split at h
  · cases h
  · cases h
  · next ps hne hps =>
      rw [Except.ok.injEq] at h
      subst h
      exact ⟨hne, hps⟩

/-- The components of a relative path, as `Path::join` reads them. -/
def pathComponents (s : String) : List String :=
  (s.toList.splitOn '/').map String.ofList

theorem pathComponents_inj {s s' : String} (h : pathComponents s = pathComponents s') : s = s' := by
  have hinj : Function.Injective String.ofList := fun a b hab => by
    simpa using congrArg String.toList hab
  have hsplit : s.toList.splitOn '/' = s'.toList.splitOn '/' := hinj.list_map h
  have hlist := congrArg (['/'].intercalate ·) hsplit
  simp only [List.intercalate_splitOn] at hlist
  exact String.toList_inj.1 hlist

theorem pathComponents_ne_nil (s : String) : pathComponents s ≠ [] := by
  simp [pathComponents]

/-- Splitting an accepted path gives back the components the gate kept. -/
theorem pathComponents_sanitize {raw s : String} (h : sanitizeRelativePath raw = .ok s) :
    ∃ parts, sanitizeParts raw.toList = .ok parts ∧ pathComponents s = parts.map String.ofList := by
  unfold sanitizeRelativePath at h
  split at h
  · cases h
  · next parts hparts =>
      rw [Except.ok.injEq] at h
      obtain ⟨hne, hcomp⟩ := sanitizeParts_ok hparts
      refine ⟨parts, hparts, ?_⟩
      rw [← h, pathComponents, String.toList_ofList, joinParts, List.splitOn_intercalate _ _ hne]
      intro c hc
      exact not_mem_of_mem_splitOn ((sanitizeComponents_sublist hcomp).subset hc)

/-- No component of an accepted path is empty. -/
theorem ne_empty_of_mem_pathComponents {raw s : String} (h : sanitizeRelativePath raw = .ok s) :
    ∀ c ∈ pathComponents s, c ≠ "" := by
  obtain ⟨parts, hparts, hs⟩ := pathComponents_sanitize h
  rw [hs]
  intro c hc
  obtain ⟨x, hx, rfl⟩ := List.mem_map.1 hc
  have hne := ne_nil_of_mem_sanitizeComponents (sanitizeParts_ok hparts).2 x hx
  intro hempty
  exact hne (by simpa using congrArg String.toList hempty)

end AetherLink
