import AetherLink.Core.Io
import AetherLink.Proto.Manifest
import Mathlib.Algebra.Order.BigOperators.Group.List

set_option autoImplicit false

/-! # What the path gate guarantees

`sanitizeRelativePath` tests the whole string first and its components while it drops the redundant
ones. Both kinds of test are stated once, as what the gate accepts (`sanitizeParts_eq_ok_iff`);
soundness and idempotence are read off that. -/

namespace AetherLink

/-! ## Walking a path -/

/-- One component of a lexical walk: nothing and `.` stay, `..` goes up, a name goes down. -/
def walkStep (here : FilePath) (c : String) : FilePath :=
  if c = "" ∨ c = "." then here
  else if c = ".." then here.dropLast
  else here ++ [c]

/-- Where the walk over `steps` from `here` ends, reading no directory. -/
def walk (here : FilePath) (steps : List String) : FilePath :=
  steps.foldl walkStep here

/-- A walk over plain names only goes down. -/
theorem walk_names (here : FilePath) (steps : List String)
    (h : ∀ c ∈ steps, c ≠ "" ∧ c ≠ "." ∧ c ≠ "..") : walk here steps = here ++ steps := by
  induction steps generalizing here with
  | nil => simp [walk]
  | cons c cs ih =>
      obtain ⟨hempty, hdot, hup⟩ := h c List.mem_cons_self
      have hstep : walkStep here c = here ++ [c] := by
        rw [walkStep, if_neg (by simp [hempty, hdot]), if_neg hup]
      rw [walk, List.foldl_cons, hstep]
      exact (ih _ fun x hx => h x (List.mem_cons_of_mem c hx)).trans (by simp)

/-- `Path::join`: an absolute path replaces the base, and `Path::components` reads neither empty
    nor `.` components. -/
def joinPath (base : FilePath) (s : String) : FilePath :=
  let steps := (pathComponents s).filter fun c => c ≠ "" ∧ c ≠ "."
  if s.toList.head? = some '/' then steps else base ++ steps

/-! ## What the gate accepts -/

/-- A component the loop passes over. -/
def isRedundant (c : List Char) : Bool :=
  c = [] ∨ c = ['.']

/-- A component that passes every test of the loop. -/
structure GoodComponent (c : List Char) : Prop where
  notParent : c ≠ ['.', '.']
  short : (Text.encode c).length ≤ MAX_COMPONENT_LEN
  noTrailingDot : c.getLast? ≠ some '.'
  noTrailingSpace : c.getLast? ≠ some ' '
  notReserved : isReservedDeviceName c = false

/-- The tests on the string as a whole, the one for a drive letter apart. -/
structure PlainText (cs : List Char) : Prop where
  ne_nil : cs ≠ []
  short : (Text.encode cs).length ≤ MAX_PATH_LEN
  noControl : ∀ c ∈ cs, isControl c = false
  noBackslash : '\\' ∉ cs
  relative : cs.head? ≠ some '/'

/-- The second byte is a colon, which the gate takes for a drive letter. -/
def hasDriveLetter (cs : List Char) : Bool :=
  (Text.encode cs)[1]? = some 0x3A

theorem sanitizeComponents_eq_ok_iff {cs parts : List (List Char)} :
    sanitizeComponents cs = .ok parts ↔
      parts = cs.filter (! isRedundant ·) ∧ ∀ c ∈ parts, GoodComponent c := by
  induction cs generalizing parts with
  | nil =>
      rw [sanitizeComponents, Except.ok.injEq, List.filter_nil]
      constructor
      · rintro rfl
        exact ⟨rfl, by simp⟩
      · exact fun h => h.1.symm
  | cons c cs ih =>
      by_cases hred : isRedundant c = true
      · have hkeep : c = [] ∨ c = ['.'] := by simpa [isRedundant] using hred
        rw [sanitizeComponents, if_pos hkeep, ih, List.filter_cons_of_neg (by simp [hred])]
      · have hkeep : ¬ (c = [] ∨ c = ['.']) := by simpa [isRedundant] using hred
        rw [sanitizeComponents, if_neg hkeep, List.filter_cons_of_pos (by simp [hred])]
        constructor
        · intro h
          split at h
          · cases h
          next hparent =>
          split at h
          · cases h
          next hshort =>
          split at h
          · cases h
          next htrail =>
          split at h
          · cases h
          next hres =>
          split at h
          · cases h
          next ps hps =>
          rw [Except.ok.injEq] at h
          obtain ⟨hfilter, hgood⟩ := ih.1 hps
          subst h
          refine ⟨by rw [hfilter], fun x hx => ?_⟩
          rcases List.mem_cons.1 hx with rfl | hx
          · exact ⟨hparent, Nat.le_of_not_lt hshort, fun h => htrail (.inl h),
              fun h => htrail (.inr h), by simpa using hres⟩
          · exact hgood x hx
        · rintro ⟨rfl, hgood⟩
          have hc := hgood c List.mem_cons_self
          have hcs := ih.2 ⟨rfl, fun x hx => hgood x (List.mem_cons_of_mem c hx)⟩
          rw [if_neg hc.notParent, if_neg (Nat.not_lt.2 hc.short),
            if_neg (not_or.2 ⟨hc.noTrailingDot, hc.noTrailingSpace⟩),
            if_neg (by simp [hc.notReserved]), hcs]

/-- The gate as one condition: plain text, no drive letter in front, and components that are all
    good once the redundant ones are dropped. -/
theorem sanitizeParts_eq_ok_iff {raw : List Char} {parts : List (List Char)} :
    sanitizeParts raw = .ok parts ↔
      PlainText raw ∧ hasDriveLetter raw = false ∧ parts ≠ [] ∧
        parts = (raw.splitOn '/').filter (! isRedundant ·) ∧ ∀ c ∈ parts, GoodComponent c := by
  have hbytes : 2 ≤ (Text.encode raw).length ∧ (Text.encode raw)[1]? = some 0x3A ↔
      hasDriveLetter raw = true := by
    rw [hasDriveLetter, decide_eq_true_iff]
    refine ⟨And.right, fun h => ⟨?_, h⟩⟩
    exact (List.getElem?_eq_some_iff.1 h).1
  -- a NUL is a control character, so its own test adds nothing
  have hnul : (∀ c ∈ raw, isControl c = false) → '\x00' ∉ raw := fun h hmem =>
    absurd (h _ hmem) (by decide)
  constructor
  · intro h
    unfold sanitizeParts at h
    split at h
    · cases h
    next hne =>
    split at h
    · cases h
    next hshort =>
    split at h
    · cases h
    split at h
    · cases h
    next hctl =>
    split at h
    · cases h
    next hback =>
    split at h
    · cases h
    next habs =>
    split at h
    · cases h
    next hdrive =>
    split at h
    · cases h
    · cases h
    next ps hps hcomp =>
    rw [Except.ok.injEq] at h
    subst h
    refine ⟨⟨hne, Nat.le_of_not_lt hshort, ?_, hback, habs⟩, ?_, hps,
      sanitizeComponents_eq_ok_iff.1 hcomp⟩
    · simpa using hctl
    · simpa using mt hbytes.2 hdrive
  · rintro ⟨hplain, hdrive, hparts, hcomp⟩
    unfold sanitizeParts
    rw [if_neg hplain.ne_nil, if_neg (Nat.not_lt.2 hplain.short), if_neg (hnul hplain.noControl),
      if_neg (by simpa using hplain.noControl), if_neg hplain.noBackslash, if_neg hplain.relative,
      if_neg (by rw [hbytes]; simp [hdrive]), sanitizeComponents_eq_ok_iff.2 hcomp]
    cases parts with
    | nil => exact absurd rfl hparts
    | cons p ps => rfl

/-! ## The text of the kept components -/

@[simp] theorem joinParts_singleton (c : List Char) : joinParts [c] = c :=
  List.intercalate_singleton

theorem joinParts_cons_cons (c d : List Char) (ds : List (List Char)) :
    joinParts (c :: d :: ds) = c ++ ['/'] ++ joinParts (d :: ds) :=
  List.intercalate_cons_cons

/-- With one separator counted for each component, lengths add up. -/
theorem length_encode_joinParts {parts : List (List Char)} (h : parts ≠ []) :
    (Text.encode (joinParts parts)).length + 1
      = (parts.map fun c => (Text.encode c).length + 1).sum := by
  induction parts with
  | nil => exact absurd rfl h
  | cons c cs ih =>
      cases cs with
      | nil => simp
      | cons d ds =>
          have hslash : (Text.encode ['/']).length = 1 := by decide
          have htail := ih (by simp)
          rw [joinParts_cons_cons, Text.encode_append, Text.encode_append, List.map_cons, List.sum_cons,
              ← htail]
          simp only [List.length_append, hslash]
          omega

/-- Dropping components never lengthens a path. -/
theorem length_encode_joinParts_le {parts cs : List (List Char)} (h : parts.Sublist cs)
    (hne : parts ≠ []) :
    (Text.encode (joinParts parts)).length ≤ (Text.encode (joinParts cs)).length := by
  have hcs : cs ≠ [] := fun hnil => hne (List.sublist_nil.1 (hnil ▸ h))
  have hparts := length_encode_joinParts hne
  have hall := length_encode_joinParts hcs
  have hsum : (parts.map fun c => (Text.encode c).length + 1).sum
      ≤ (cs.map fun c => (Text.encode c).length + 1).sum :=
    (h.map _).sum_le_sum fun _ _ => Nat.zero_le _
  omega

theorem mem_joinParts {parts : List (List Char)} {x : Char} (h : x ∈ joinParts parts) :
    x = '/' ∨ ∃ c ∈ parts, x ∈ c := by
  induction parts with
  | nil => simp [joinParts] at h
  | cons c cs ih =>
      cases cs with
      | nil =>
          rw [joinParts_singleton] at h
          exact Or.inr ⟨c, List.mem_cons_self, h⟩
      | cons d ds =>
          rw [joinParts_cons_cons, List.mem_append, List.mem_append, List.mem_singleton] at h
          rcases h with (h | h) | h
          · exact Or.inr ⟨c, List.mem_cons_self, h⟩
          · exact Or.inl h
          · rcases ih h with h | ⟨e, he, hx⟩
            · exact Or.inl h
            · exact Or.inr ⟨e, List.mem_cons_of_mem c he, hx⟩

theorem joinParts_splitOn (raw : List Char) : joinParts (raw.splitOn '/') = raw :=
  List.intercalate_splitOn '/'

/-- Every character of a component is one of the path's. -/
theorem mem_of_mem_splitOn {raw c : List Char} (hc : c ∈ raw.splitOn '/') {x : Char}
    (hx : x ∈ c) : x ∈ raw := by
  rw [← joinParts_splitOn raw]
  generalize raw.splitOn '/' = cs at hc
  induction cs with
  | nil => simp at hc
  | cons d ds ih =>
      cases ds with
      | nil =>
          obtain rfl := List.mem_singleton.1 hc
          simpa using hx
      | cons e es =>
          rw [joinParts_cons_cons, List.mem_append, List.mem_append]
          rcases List.mem_cons.1 hc with rfl | hc
          · exact Or.inl (Or.inl hx)
          · exact Or.inr (ih hc)

/-- The joined components start with the first one and end with the last one. -/
theorem head?_joinParts {c : List Char} (cs : List (List Char)) (hc : c ≠ []) :
    (joinParts (c :: cs)).head? = c.head? := by
  cases cs with
  | nil => simp
  | cons d ds =>
      rw [joinParts_cons_cons, List.append_assoc, List.head?_append_of_ne_nil _ hc]

theorem joinParts_cons_ne_nil {c : List Char} (cs : List (List Char)) (hc : c ≠ []) :
    joinParts (c :: cs) ≠ [] := by
  intro hnil
  have hhead := head?_joinParts cs hc
  rw [hnil, List.head?_nil, eq_comm, List.head?_eq_none_iff] at hhead
  exact hc hhead

theorem getLast?_joinParts {parts : List (List Char)} (hne : ∀ c ∈ parts, c ≠ []) :
    (joinParts parts).getLast? = (parts.getLast?.getD []).getLast? := by
  induction parts with
  | nil => simp [joinParts]
  | cons c cs ih =>
      cases cs with
      | nil => simp
      | cons d ds =>
          have htail := ih fun x hx => hne x (List.mem_cons_of_mem c hx)
          have hne' : joinParts (d :: ds) ≠ [] := joinParts_cons_ne_nil ds (hne d (by simp))
          rw [joinParts_cons_cons, List.getLast?_append_of_ne_nil _ hne']
          exact htail.trans (by simp [List.getLast?_cons_cons])

/-! ## Soundness -/

/-- What the gate promises of one component. -/
structure SafeComponent (c : String) : Prop where
  nonempty : c ≠ ""
  short : (Text.encode c.toList).length ≤ MAX_COMPONENT_LEN
  notDot : c ≠ "."
  notParent : c ≠ ".."
  noTrailingDot : c.toList.getLast? ≠ some '.'
  noTrailingSpace : c.toList.getLast? ≠ some ' '
  /-- in any letter case, and whatever follows the first dot -/
  notReserved : ∀ name ∈ RESERVED,
    (c.toList.takeWhile (· ≠ '.')).map Char.toLower ≠ name.map Char.toLower

/-- What the gate promises of the path it returns. -/
structure SafePath (s : String) : Prop where
  nonempty : s ≠ ""
  short : (Text.encode s.toList).length ≤ MAX_PATH_LEN
  noControl : ∀ x ∈ s.toList, isControl x = false
  noNul : '\x00' ∉ s.toList
  noBackslash : '\\' ∉ s.toList
  noLeadingSlash : s.toList.head? ≠ some '/'
  noTrailingSlash : s.toList.getLast? ≠ some '/'
  components_ne_nil : pathComponents s ≠ []
  components : ∀ c ∈ pathComponents s, SafeComponent c

theorem GoodComponent.safe {c : List Char} (h : GoodComponent c) (hred : isRedundant c = false) :
    SafeComponent (String.ofList c) := by
  have hkeep : ¬ (c = [] ∨ c = ['.']) := by simpa [isRedundant] using hred
  have htext {t : String} (ht : c ≠ t.toList) : String.ofList c ≠ t := fun heq => by
    rw [← heq, String.toList_ofList] at ht
    exact ht rfl
  refine ⟨htext fun hc => hkeep (.inl hc), ?_, htext fun hc => hkeep (.inr hc),
    htext h.notParent, ?_, ?_, ?_⟩
  all_goals rw [String.toList_ofList]
  · exact h.short
  · exact h.noTrailingDot
  · exact h.noTrailingSpace
  · intro name hname heq
    have hres : isReservedDeviceName c = true := by
      rw [isReservedDeviceName, List.any_eq_true]
      exact ⟨name, hname, by rw [eqIgnoreAsciiCase, heq, beq_self_eq_true]⟩
    rw [h.notReserved] at hres
    cases hres

/-- What is known of the components the gate keeps. -/
structure Kept (raw : List Char) (parts : List (List Char)) : Prop where
  ne_nil : parts ≠ []
  parts_eq : parts = (raw.splitOn '/').filter (! isRedundant ·)
  good : ∀ c ∈ parts, GoodComponent c

namespace Kept

variable {raw : List Char} {parts : List (List Char)} (h : Kept raw parts)

include h

theorem mem_splitOn {c : List Char} (hc : c ∈ parts) : c ∈ raw.splitOn '/' :=
  (List.mem_filter.1 (h.parts_eq ▸ hc)).1

theorem not_redundant {c : List Char} (hc : c ∈ parts) : isRedundant c = false := by
  rw [h.parts_eq, List.mem_filter] at hc
  simpa using hc.2

theorem part_ne_nil {c : List Char} (hc : c ∈ parts) : c ≠ [] := by
  rintro rfl
  exact absurd (h.not_redundant hc) (by decide)

theorem slash_notMem {c : List Char} (hc : c ∈ parts) : '/' ∉ c :=
  not_mem_of_mem_splitOn (h.mem_splitOn hc)

/-- Dropping components brings in no new character. -/
theorem mem_raw {x : Char} (hx : x ∈ joinParts parts) : x = '/' ∨ x ∈ raw := by
  rcases mem_joinParts hx with hslash | ⟨c, hc, hxc⟩
  · exact Or.inl hslash
  · exact Or.inr (mem_of_mem_splitOn (h.mem_splitOn hc) hxc)

theorem head?_ne : (joinParts parts).head? ≠ some '/' := by
  obtain ⟨c, cs, rfl⟩ := List.exists_cons_of_ne_nil h.ne_nil
  rw [head?_joinParts cs (h.part_ne_nil List.mem_cons_self)]
  exact fun hhead => h.slash_notMem List.mem_cons_self (List.mem_of_head? hhead)

theorem getLast?_ne : (joinParts parts).getLast? ≠ some '/' := by
  rw [getLast?_joinParts fun c hc => h.part_ne_nil hc]
  have hlast := List.getLast?_eq_some_getLast h.ne_nil
  rw [hlast, Option.getD_some]
  exact fun hslash => h.slash_notMem (List.getLast_mem h.ne_nil) (List.mem_of_getLast? hslash)

theorem joinParts_ne_nil : joinParts parts ≠ [] := by
  obtain ⟨c, cs, rfl⟩ := List.exists_cons_of_ne_nil h.ne_nil
  exact joinParts_cons_ne_nil cs (h.part_ne_nil List.mem_cons_self)

/-- The tests on the whole string hold of the output again. -/
theorem plainText (hraw : PlainText raw) : PlainText (joinParts parts) where
  ne_nil := h.joinParts_ne_nil
  short := by
    have hsub : parts.Sublist (raw.splitOn '/') := h.parts_eq ▸ List.filter_sublist
    have hle := length_encode_joinParts_le hsub h.ne_nil
    rw [joinParts_splitOn] at hle
    exact hle.trans hraw.short
  noControl := fun x hx => by
    rcases h.mem_raw hx with rfl | hx
    · decide
    · exact hraw.noControl x hx
  noBackslash := fun hx => by
    rcases h.mem_raw hx with hslash | hx
    · exact absurd hslash (by decide)
    · exact hraw.noBackslash hx
  relative := h.head?_ne

theorem splitOn_joinParts : (joinParts parts).splitOn '/' = parts :=
  List.splitOn_intercalate _ (fun _ hc => h.slash_notMem hc) h.ne_nil

/-- Nothing is left to drop. -/
theorem again : Kept (joinParts parts) parts where
  ne_nil := h.ne_nil
  parts_eq := by
    rw [h.splitOn_joinParts]
    exact (List.filter_eq_self.2 fun c hc => by simp [h.not_redundant hc]).symm
  good := h.good

end Kept

/-- An accepted path, with the components it was made of. -/
theorem sanitizeRelativePath_eq_ok_iff {raw s : String} :
    sanitizeRelativePath raw = .ok s ↔
      ∃ parts, PlainText raw.toList ∧ hasDriveLetter raw.toList = false ∧
        Kept raw.toList parts ∧ s = String.ofList (joinParts parts) := by
  constructor
  · intro h
    unfold sanitizeRelativePath at h
    split at h
    · cases h
    next parts hparts =>
    obtain ⟨hplain, hdrive, hne, hfilter, hgood⟩ := sanitizeParts_eq_ok_iff.1 hparts
    exact ⟨parts, hplain, hdrive, ⟨hne, hfilter, hgood⟩, (Except.ok.inj h).symm⟩
  · rintro ⟨parts, hplain, hdrive, hkept, rfl⟩
    have hparts : sanitizeParts raw.toList = .ok parts :=
      sanitizeParts_eq_ok_iff.2 ⟨hplain, hdrive, hkept.ne_nil, hkept.parts_eq, hkept.good⟩
    rw [sanitizeRelativePath, hparts]

theorem pathComponents_ofList_joinParts {raw : List Char} {parts : List (List Char)}
    (h : Kept raw parts) :
    pathComponents (String.ofList (joinParts parts)) = parts.map String.ofList := by
  rw [pathComponents, String.toList_ofList, h.splitOn_joinParts]

theorem ofList_isRedundant (c : List Char) :
    (! isRedundant c) = decide (String.ofList c ≠ "" ∧ String.ofList c ≠ ".") := by
  have hinj (t : String) : String.ofList c = t ↔ c = t.toList :=
    ⟨fun heq => by rw [← heq, String.toList_ofList], fun heq => by rw [heq, String.ofList_toList]⟩
  have hiff : ¬ (c = [] ∨ c = ['.']) ↔ String.ofList c ≠ "" ∧ String.ofList c ≠ "." := by
    rw [not_or, ne_eq, ne_eq, hinj, hinj]
    rfl
  rw [isRedundant, ← decide_not]
  exact decide_eq_decide.2 hiff

/-- The components of an accepted path are the raw ones, the redundant ones dropped. -/
theorem Kept.pathComponents_filter {raw : String} {parts : List (List Char)}
    (h : Kept raw.toList parts) :
    (pathComponents raw).filter (fun c => c ≠ "" ∧ c ≠ ".") = parts.map String.ofList := by
  rw [pathComponents, List.filter_map, h.parts_eq]
  congr 1
  refine List.filter_congr fun c _ => ?_
  rw [ofList_isRedundant]
  rfl

theorem Kept.safe {raw : List Char} {parts : List (List Char)} (h : Kept raw parts) :
    ∀ c ∈ parts.map String.ofList, SafeComponent c := by
  intro c hc
  obtain ⟨x, hx, rfl⟩ := List.mem_map.1 hc
  exact (h.good x hx).safe (h.not_redundant hx)

theorem Kept.safePath {raw : List Char} {parts : List (List Char)} (h : Kept raw parts)
    (hraw : PlainText raw) : SafePath (String.ofList (joinParts parts)) := by
  have hplain := h.plainText hraw
  have hcomp := pathComponents_ofList_joinParts h
  refine ⟨?_, ?_, ?_, ?_, ?_, ?_, ?_, pathComponents_ne_nil _, hcomp ▸ h.safe⟩
  · intro hempty
    have hnil := congrArg String.toList hempty
    rw [String.toList_ofList] at hnil
    exact hplain.ne_nil hnil
  all_goals rw [String.toList_ofList]
  · exact hplain.short
  · exact hplain.noControl
  · exact fun hnul => absurd (hplain.noControl _ hnul) (by decide)
  · exact hplain.noBackslash
  · exact hplain.relative
  · exact h.getLast?_ne

/-- A safe path, joined to a directory, is the directory with the path's components after it. -/
theorem SafePath.joinPath_eq {s : String} (h : SafePath s) (outputDir : FilePath) :
    joinPath outputDir s = outputDir ++ pathComponents s := by
  have hkeep : (pathComponents s).filter (fun c => c ≠ "" ∧ c ≠ ".") = pathComponents s := by
    rw [List.filter_eq_self]
    intro c hc
    have hsafe := h.components c hc
    simp [hsafe.nonempty, hsafe.notDot]
  rw [joinPath, if_neg h.noLeadingSlash, hkeep]

/-- Every step of the way from the directory to the joined path is below the directory. -/
theorem SafePath.walk_eq {s : String} (h : SafePath s) (root outputDir : FilePath)
    {steps : List String} (hsteps : steps <+: pathComponents s) :
    walk root (outputDir ++ steps) = walk root outputDir ++ steps := by
  have hnames : ∀ c ∈ steps, c ≠ "" ∧ c ≠ "." ∧ c ≠ ".." := by
    intro c hc
    have hsafe := h.components c (hsteps.subset hc)
    exact ⟨hsafe.nonempty, hsafe.notDot, hsafe.notParent⟩
  rw [walk, List.foldl_append]
  exact walk_names (walk root outputDir) steps hnames

/-- **The path gate is sound**: an accepted path is safe, its components are the raw ones with the
    empty and `.` ones dropped, and joined to any directory it stays below it; a `..` in any
    position is refused. -/
theorem path_gate_sound (raw : String) :
    (∀ s, sanitizeRelativePath raw = .ok s →
      SafePath s ∧
      pathComponents s = (pathComponents raw).filter (fun c => c ≠ "" ∧ c ≠ ".") ∧
      ∀ outputDir : FilePath,
        joinPath outputDir s = outputDir ++ pathComponents s ∧
        outputDir <+: joinPath outputDir s ∧ outputDir ≠ joinPath outputDir s ∧
        ∀ root steps, steps <+: pathComponents s →
          walk root (outputDir ++ steps) = walk root outputDir ++ steps) ∧
    (".." ∈ pathComponents raw → ∀ s, sanitizeRelativePath raw ≠ .ok s) := by
  constructor
  · intro s h
    obtain ⟨parts, hplain, -, hkept, rfl⟩ := sanitizeRelativePath_eq_ok_iff.1 h
    have hsafe := hkept.safePath hplain
    refine ⟨hsafe, ?_, fun outputDir => ?_⟩
    · rw [hkept.pathComponents_filter, pathComponents_ofList_joinParts hkept]
    · have hjoin := hsafe.joinPath_eq outputDir
      refine ⟨hjoin, ?_, ?_, fun root steps hsteps => hsafe.walk_eq root outputDir hsteps⟩
      · rw [hjoin]
        exact List.prefix_append _ _
      · rw [hjoin]
        exact fun heq => hsafe.components_ne_nil (List.self_eq_append_right.1 heq)
  · intro hup s h
    obtain ⟨parts, -, -, hkept, -⟩ := sanitizeRelativePath_eq_ok_iff.1 h
    -- a `..` is not dropped, and what is not dropped is safe
    have hmem : ".." ∈ parts.map String.ofList := by
      rw [← hkept.pathComponents_filter]
      exact List.mem_filter.2 ⟨hup, by decide⟩
    exact (hkept.safe _ hmem).notParent rfl

/-! ## Idempotence -/

/-- The first component of a path that the gate does not drop. -/
def firstComponent (raw : String) : List Char :=
  ((raw.toList.splitOn '/').find? (! isRedundant ·)).getD []

theorem Kept.firstComponent_eq {raw : String} {c : List Char} {cs : List (List Char)}
    (h : Kept raw.toList (c :: cs)) : firstComponent raw = c := by
  rw [firstComponent, ← List.head?_filter, ← h.parts_eq]
  rfl

/-- A one-byte component is followed by a slash or by nothing, so only the first component decides
    whether the second byte is a colon. -/
theorem hasDriveLetter_joinParts {c : List Char} (cs : List (List Char)) (hc : c ≠ []) :
    hasDriveLetter (joinParts (c :: cs)) = hasDriveLetter c := by
  cases cs with
  | nil => simp
  | cons d ds =>
      rw [joinParts_cons_cons, hasDriveLetter, hasDriveLetter, Text.encode_append, Text.encode_append]
      have hpos : 0 < (Text.encode c).length := by
        obtain ⟨x, xs, rfl⟩ := List.exists_cons_of_ne_nil hc
        have hx := String.length_utf8EncodeChar x
        have := Char.utf8Size_pos x
        simp only [Text.encode, List.flatMap_cons, List.length_append]
        omega
      rw [List.append_assoc]
      by_cases hlen : 1 < (Text.encode c).length
      · rw [List.getElem?_append_left hlen]
      · have hone : (Text.encode c).length = 1 := by omega
        have hslash : Text.encode ['/'] = [0x2F] := by decide
        have hnone : (Text.encode c)[1]? = none := List.getElem?_eq_none (by omega)
        rw [hnone, List.getElem?_append_right (by omega), hone, hslash]
        rfl

/-- **When the gate accepts its own output**: exactly when the first component it keeps does not
    look like a drive. -/
theorem path_gate_idempotent_iff {raw s : String} (h : sanitizeRelativePath raw = .ok s) :
    sanitizeRelativePath s = .ok s ↔ hasDriveLetter (firstComponent raw) = false := by
  obtain ⟨parts, hplain, -, hkept, rfl⟩ := sanitizeRelativePath_eq_ok_iff.1 h
  obtain ⟨c, cs, rfl⟩ := List.exists_cons_of_ne_nil hkept.ne_nil
  have hdrive := hasDriveLetter_joinParts cs (hkept.part_ne_nil List.mem_cons_self)
  rw [hkept.firstComponent_eq, ← hdrive]
  constructor
  · intro hagain
    obtain ⟨-, -, hfront, -, -⟩ := sanitizeRelativePath_eq_ok_iff.1 hagain
    rwa [String.toList_ofList] at hfront
  · intro hfront
    refine sanitizeRelativePath_eq_ok_iff.2 ⟨c :: cs, ?_, ?_, ?_, rfl⟩
    all_goals rw [String.toList_ofList]
    · exact hkept.plainText hplain
    · exact hfront
    · exact hkept.again

theorem path_gate_idempotent_iff_collapsed :
    sanitizeRelativePath "a//b/./c.txt" = .ok "a/b/c.txt" ∧
      sanitizeRelativePath "a/b/c.txt" = .ok "a/b/c.txt" ∧
      sanitizeRelativePath "./C:x" = .ok "C:x" ∧ sanitizeRelativePath "C:x" ≠ .ok "C:x" := by
  have hplain : sanitizeRelativePath "a//b/./c.txt" = .ok "a/b/c.txt" := by decide +kernel
  have hdrive : sanitizeRelativePath "./C:x" = .ok "C:x" := by decide +kernel
  refine ⟨hplain, (path_gate_idempotent_iff hplain).2 (by decide +kernel), hdrive, fun hagain => ?_⟩
  exact absurd ((path_gate_idempotent_iff hdrive).1 hagain) (by decide +kernel)

/-- A redundant `.` in front hides a drive letter, which the gate's output then starts with. -/
theorem gate_output_has_drive_letter :
    sanitizeRelativePath "./C:x" = .ok "C:x" ∧
      sanitizeRelativePath "C:x" = .error (.unsafePath "C:x" "contains a drive letter") := by
  decide +kernel

end AetherLink
