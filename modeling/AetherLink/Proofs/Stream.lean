import AetherLink.Core.Recv.Drain
import AetherLink.Proofs.Session
import AetherLink.Spec.Stream

set_option autoImplicit false

/-! # Reading frames one at a time

The grammar of a stream groups frames into runs; a worker meets the frames one after the other and
knows only the chunk in progress and its buffer. `Files.Takes` is what a worker in that state still
takes, and by `Files.takes_iff` it is the grammar, read from the middle of a run. -/

namespace AetherLink

/-! ## The checks on a data frame's header -/

theorem admitFrame_ok_iff (c : Current) (filled : Nat) (h : FrameHeader) :
    admitFrame c filled h = .ok () ↔ h.fileId = c.fileId ∧ h.offset.toNat = c.start + filled ∧
      filled + h.length.toNat ≤ c.expectedLen := by
  unfold admitFrame
  by_cases hid : h.fileId = c.fileId
  · by_cases hoff : h.offset.toNat = c.start + filled
    · by_cases hlen : c.expectedLen < filled + h.length.toNat
      · rw [if_neg (not_not.2 hid), if_neg (not_not.2 hoff), if_pos hlen]
        refine ⟨fun heq => (by cases heq), fun ⟨_, _, hle⟩ => absurd hlen (Nat.not_lt.2 hle)⟩
      · rw [if_neg (not_not.2 hid), if_neg (not_not.2 hoff), if_neg hlen]
        exact ⟨fun _ => ⟨hid, hoff, Nat.not_lt.1 hlen⟩, fun _ => rfl⟩
    · rw [if_neg (not_not.2 hid), if_pos hoff]
      exact ⟨fun heq => (by cases heq), fun ⟨_, heq, _⟩ => absurd heq hoff⟩
  · rw [if_pos hid]
    exact ⟨fun heq => (by cases heq), fun ⟨heq, _⟩ => absurd heq hid⟩

/-- A frame that opens a chunk begins it. -/
theorem startChunk_ok_iff (s : FileState) (h : FrameHeader) (c : Current) :
    startChunk s h = .ok c ↔ c.fileId = h.fileId ∧ c.Of s ∧ h.offset.toNat = c.start := by
  constructor
  · intro hc
    obtain ⟨hid, hof⟩ := startChunk_ok hc
    refine ⟨hid, hof, ?_⟩
    unfold startChunk at hc
    split at hc
    · cases hc
    · split at hc
      · cases hc
      · split at hc
        · cases hc
        · next heq =>
            cases hc
            exact not_not.1 heq
  · rintro ⟨hid, hof, hoff⟩
    have hindex : s.layout.indexOf h.offset.toNat = .ok c.chunkIndex := by
      rw [hoff, hof.start_eq]
      exact s.layout.indexOf_start hof.index
    unfold startChunk
    rw [hindex]
    simp only [s.layout.range_eq hof.index]
    rw [if_neg (not_not.2 (hoff.trans hof.start_eq)), ← hof.start_eq, ← hof.len_eq, ← hid]

section

variable {files : Files} {h : FrameHeader} {buf filled : List UInt8}

/-- With a chunk in progress, the frame goes on with it. -/
theorem acceptFrame_some_iff (c d : Current) :
    acceptFrame files (some c) buf h = .ok (d, filled) ↔ d = c ∧ filled = buf ∧
      (∃ s, files.lookup h.fileId = some s) ∧ admitFrame c buf.length h = .ok () := by
  unfold acceptFrame
  cases hs : files.lookup h.fileId with
  | none => exact ⟨fun heq => (by cases heq), fun ⟨_, _, ⟨_, heq⟩, _⟩ => (by cases heq)⟩
  | some s =>
      simp only
      cases hadm : admitFrame c buf.length h with
      | error e => exact ⟨fun heq => (by cases heq), fun ⟨_, _, _, heq⟩ => (by cases heq)⟩
      | ok u =>
          refine ⟨fun heq => ?_, fun ⟨hd, hf, _⟩ => ?_⟩
          · cases heq
            exact ⟨rfl, rfl, ⟨s, rfl⟩, rfl⟩
          · rw [hd, hf]

/-- With none, it opens one, and is its first frame. -/
theorem acceptFrame_none_iff (c : Current) :
    acceptFrame files none buf h = .ok (c, filled) ↔
      (∃ s, files.lookup c.fileId = some s ∧ c.Of s) ∧
        acceptFrame files (some c) [] h = .ok (c, filled) := by
  rw [acceptFrame_some_iff, admitFrame_ok_iff]
  constructor
  · intro hok
    obtain ⟨s, hs, hwhich, hid, hfits⟩ := acceptFrame_ok hok
    rcases hwhich with ⟨hcur, -⟩ | ⟨-, hnil, hstart⟩
    · cases hcur
    · obtain ⟨hid', hof, hoff⟩ := (startChunk_ok_iff s h c).1 hstart
      rw [hnil] at hfits
      exact ⟨⟨s, hid'.symm ▸ hs, hof⟩, rfl, hnil, ⟨s, hs⟩, hid, hoff, hfits⟩
  · rintro ⟨⟨s, hs, hof⟩, -, rfl, -, hid, hoff, hfits⟩
    have hstart : startChunk s h = .ok c := (startChunk_ok_iff s h c).2 ⟨hid.symm, hof, hoff⟩
    have hadm : admitFrame c ([] : List UInt8).length h = .ok () :=
      (admitFrame_ok_iff c _ h).2 ⟨hid, hoff, hfits⟩
    unfold acceptFrame
    rw [hid, hs]
    simp only [hstart, Except.map, hadm]

end

/-! ## What a worker still takes -/

namespace Files

variable (blake3 : Blake3) (files : Files)

/-- The chunk has a bit in the bitmap of its file. -/
def HasBit (c : Current) : Prop :=
  ∃ s, files.lookup c.fileId = some s ∧ c.chunkIndex < s.bitmap.count

/-- The buffer hashes to the digest the offer committed to for the chunk, which has a bit. -/
def Commits (c : Current) (buf : List UInt8) : Prop :=
  ∃ s, files.lookup c.fileId = some s ∧
    s.chunkHashes[c.chunkIndex]? = some (hashChunk blake3 buf) ∧ c.chunkIndex < s.bitmap.count

/-- The frames a worker takes, with this chunk in progress and this much of it in the buffer, up to
    an end of the stream between chunks. -/
def Takes : Option Current → List UInt8 → List Frame → Prop
  | current, _, [] => current = none
  | current, buf, f :: fs =>
      (f.header.msgType = .keepalive ∧ Takes current buf fs) ∨
      (f.header.msgType = .fileData ∧ ∃ c filled,
        acceptFrame files current buf f.header = .ok (c, filled) ∧
        if (filled ++ f.payload).length = c.expectedLen then
          files.Commits blake3 c (filled ++ f.payload) ∧ Takes none [] fs
        else Takes (some c) (filled ++ f.payload) fs)

/-- The run makes the chunk in progress whole. -/
structure Completes (c : Current) (buf : List UInt8) (run : List Frame) : Prop where
  sameFile : ∀ f ∈ run, f.header.fileId = c.fileId
  contiguous : Frame.Contiguous (c.start + buf.length) run
  length_eq : buf.length + (Frame.payloads run).length = c.expectedLen
  commits : files.Commits blake3 c (buf ++ Frame.payloads run)
  tight : Frame.Tight run

/-- The data frames are runs, each of a chunk. -/
def Runs (fs : List Frame) : Prop :=
  ∃ runs : List (List Frame), fs = runs.flatten ∧
    ∀ run ∈ runs, files.TakenRun blake3 run

/-- The data frames make the chunk in progress whole, and then are runs. -/
def Rest : Option Current → List UInt8 → List Frame → Prop
  | none, _, fs => files.Runs blake3 fs
  | some c, buf, fs => ∃ run more, fs = run ++ more ∧ files.Completes blake3 c buf run ∧
      files.Runs blake3 more

end Files

section

variable {blake3 : Blake3} {files : Files} {c : Current} {buf : List UInt8} {f : Frame}
  {run fs : List Frame}

theorem Frame.payloads_cons (f : Frame) (fs : List Frame) :
    payloads (f :: fs) = f.payload ++ payloads fs :=
  List.flatMap_cons

/-- Frames without a byte between them do not end a tight run. -/
theorem Frame.Tight.eq_nil (h : Tight run) (hlen : (payloads run).length = 0) : run = [] := by
  rcases List.eq_nil_or_concat run with hnil | ⟨front, last, rfl⟩
  · exact hnil
  · have hlast : last.payload ≠ [] := h last (by simp)
    rw [payloads, List.concat_eq_append, List.flatMap_append, List.length_append,
      List.flatMap_singleton] at hlen
    exact absurd (List.eq_nil_of_length_eq_zero (Nat.eq_zero_of_add_eq_zero_left hlen)) hlast

theorem Frame.Tight.of_cons (h : Tight (f :: run)) (hne : run ≠ []) : Tight run := by
  obtain ⟨g, rest, rfl⟩ := List.exists_cons_of_ne_nil hne
  intro x hx
  exact h x (by rwa [List.getLast?_cons_cons])

theorem Frame.Tight.cons (h : Tight run) (hne : run ≠ []) : Tight (f :: run) := by
  obtain ⟨g, rest, rfl⟩ := List.exists_cons_of_ne_nil hne
  intro x hx
  rw [List.getLast?_cons_cons] at hx
  exact h x hx

namespace Files

/-- A chunk that is short of bytes needs another frame. -/
theorem Completes.ne_nil (h : files.Completes blake3 c buf run)
    (hlt : buf.length < c.expectedLen) : run ≠ [] := by
  rintro rfl
  have hlen := h.length_eq
  rw [show Frame.payloads [] = [] from rfl, List.length_nil] at hlen
  omega

/-- **The first frame of what makes a chunk whole.** It goes on where the buffer ends, and either it
    fills the chunk and is the last, or the rest makes the longer buffer whole. -/
theorem completes_cons_iff (hlt : buf.length < c.expectedLen) :
    files.Completes blake3 c buf (f :: run) ↔
      f.header.fileId = c.fileId ∧ f.header.offset.toNat = c.start + buf.length ∧
      ((buf ++ f.payload).length = c.expectedLen ∧
          files.Commits blake3 c (buf ++ f.payload) ∧ run = [] ∨
        (buf ++ f.payload).length < c.expectedLen ∧
          files.Completes blake3 c (buf ++ f.payload) run) := by
  constructor
  · intro h
    have hlen := h.length_eq
    have hcommits := h.commits
    obtain ⟨hoff, hrest⟩ := h.contiguous
    rw [Frame.payloads_cons, List.length_append] at hlen
    rw [Frame.payloads_cons, ← List.append_assoc] at hcommits
    refine ⟨h.sameFile f List.mem_cons_self, hoff, ?_⟩
    by_cases hfull : (buf ++ f.payload).length = c.expectedLen
    · have hnil : run = [] := by
        by_contra hne
        refine hne ((h.tight.of_cons hne).eq_nil ?_)
        rw [List.length_append] at hfull
        omega
      rw [hnil, show Frame.payloads [] = [] from rfl, List.append_nil] at hcommits
      exact .inl ⟨hfull, hcommits, hnil⟩
    · have hshort : (buf ++ f.payload).length < c.expectedLen := by
        rw [List.length_append] at hfull ⊢
        omega
      have hne : run ≠ [] := by
        rintro rfl
        rw [show Frame.payloads [] = [] from rfl, List.length_nil] at hlen
        rw [List.length_append] at hshort
        omega
      refine .inr ⟨hshort, fun g hg => h.sameFile g (List.mem_cons_of_mem _ hg), ?_, ?_, hcommits,
        h.tight.of_cons hne⟩
      · rw [List.length_append, ← Nat.add_assoc]
        exact hrest
      · rw [List.length_append]
        omega
  · rintro ⟨hid, hoff, ⟨hfull, hcommits, rfl⟩ | ⟨hshort, h⟩⟩
    · have hone : Frame.payloads [f] = f.payload := List.flatMap_singleton _ _
      rw [List.length_append] at hfull
      refine ⟨fun g hg => ?_, ⟨hoff, trivial⟩, by rw [hone]; exact hfull,
          by rw [hone]; exact hcommits,
        fun g hg => ?_⟩
      · obtain rfl := List.mem_singleton.1 hg
        exact hid
      · obtain rfl : f = g := by simpa using hg
        intro hnil
        rw [hnil, List.length_nil] at hfull
        omega
    · refine ⟨fun g hg => ?_, ⟨hoff, ?_⟩, ?_, ?_, h.tight.cons (h.ne_nil hshort)⟩
      · rcases List.mem_cons.1 hg with rfl | hg
        · exact hid
        · exact h.sameFile g hg
      · rw [Nat.add_assoc, ← List.length_append]
        exact h.contiguous
      · have hlen := h.length_eq
        rw [List.length_append] at hlen
        rw [Frame.payloads_cons, List.length_append]
        omega
      · rw [Frame.payloads_cons, ← List.append_assoc]
        exact h.commits

/-- A run of a chunk makes it whole from nothing. -/
theorem takenRun_iff : files.TakenRun blake3 run ↔
    ∃ c : Current, (∃ s, files.lookup c.fileId = some s ∧ c.Of s) ∧
      files.Completes blake3 c [] run := by
  constructor
  · rintro ⟨id, s, i, hs, hcarry, htight, hbit⟩
    have hp := hcarry.isPayload
    refine ⟨⟨id, i, s.layout.start i, s.layout.len i⟩, ⟨s, hs, hp.index, rfl, rfl⟩,
      hcarry.sameFile, hcarry.contiguous, ?_, ⟨s, hs, hp.digest, hbit⟩, htight⟩
    rw [List.length_nil, Nat.zero_add]
    exact hp.length_eq
  · rintro ⟨c, ⟨s, hs, hof⟩, h⟩
    obtain ⟨s', hs', hdigest, hbit⟩ := h.commits
    obtain rfl := Option.some.inj (hs.symm.trans hs')
    have hlen := h.length_eq
    rw [List.length_nil, Nat.zero_add] at hlen
    have hcontiguous := h.contiguous
    rw [List.length_nil, Nat.add_zero, hof.start_eq] at hcontiguous
    exact ⟨c.fileId, s, c.chunkIndex, hs, ⟨h.sameFile, hcontiguous, hof.index,
      hlen.trans hof.len_eq, hdigest⟩, h.tight, hbit⟩

theorem Runs.nil : files.Runs blake3 [] :=
  ⟨[], rfl, fun _ h => absurd h List.not_mem_nil⟩

/-- Between chunks, the next data frame is the first of a run. -/
theorem runs_cons_iff : files.Runs blake3 (f :: fs) ↔
    ∃ c : Current, (∃ s, files.lookup c.fileId = some s ∧ c.Of s) ∧
      files.Rest blake3 (some c) [] (f :: fs) := by
  constructor
  · rintro ⟨runs, heq, hruns⟩
    cases runs with
    | nil => cases heq
    | cons run runs =>
        obtain ⟨c, hc, h⟩ := takenRun_iff.1 (hruns run List.mem_cons_self)
        exact ⟨c, hc, run, runs.flatten, heq, h, runs, rfl,
          fun r hr => hruns r (List.mem_cons_of_mem _ hr)⟩
  · rintro ⟨c, hc, run, more, heq, h, runs, rfl, hruns⟩
    refine ⟨run :: runs, heq, fun r hr => ?_⟩
    rcases List.mem_cons.1 hr with rfl | hr
    · exact takenRun_iff.2 ⟨c, hc, h⟩
    · exact hruns r hr

/-- In a chunk, the next data frame goes on with it. -/
theorem rest_cons_iff (hlt : buf.length < c.expectedLen) :
    files.Rest blake3 (some c) buf (f :: fs) ↔
      f.header.fileId = c.fileId ∧ f.header.offset.toNat = c.start + buf.length ∧
      ((buf ++ f.payload).length = c.expectedLen ∧
          files.Commits blake3 c (buf ++ f.payload) ∧ files.Runs blake3 fs ∨
        (buf ++ f.payload).length < c.expectedLen ∧
          files.Rest blake3 (some c) (buf ++ f.payload) fs) := by
  constructor
  · rintro ⟨run, more, heq, h, hmore⟩
    obtain ⟨g, run, rfl⟩ := List.exists_cons_of_ne_nil (h.ne_nil hlt)
    rw [List.cons_append, List.cons.injEq] at heq
    obtain ⟨rfl, rfl⟩ := heq
    obtain ⟨hid, hoff, ⟨hfull, hcommits, rfl⟩ | ⟨hshort, hrun⟩⟩ := (completes_cons_iff hlt).1 h
    · exact ⟨hid, hoff, .inl ⟨hfull, hcommits, hmore⟩⟩
    · exact ⟨hid, hoff, .inr ⟨hshort, run, more, rfl, hrun, hmore⟩⟩
  · rintro ⟨hid, hoff, ⟨hfull, hcommits, hmore⟩ | ⟨hshort, run, more, rfl, hrun, hmore⟩⟩
    · exact ⟨[f], fs, rfl, (completes_cons_iff hlt).2 ⟨hid, hoff, .inl ⟨hfull, hcommits, rfl⟩⟩,
        hmore⟩
    · exact ⟨f :: run, more, rfl, (completes_cons_iff hlt).2 ⟨hid, hoff, .inr ⟨hshort, hrun⟩⟩,
        hmore⟩

/-- There is a known chunk in progress, or none, and it is short of bytes. -/
def Open (files : Files) (current : Option Current) (buf : List UInt8) : Prop :=
  ∀ c, current = some c →
    (∃ s, files.lookup c.fileId = some s ∧ c.Of s) ∧ buf.length < c.expectedLen

theorem Open.none : Open files none buf :=
  fun _ h => by cases h

theorem takes_nil_iff {current : Option Current} :
    files.Takes blake3 current buf [] ↔ current = none :=
  Iff.rfl

/-- Frames of which each is a keepalive or carries data. -/
def Kinds (fs : List Frame) : Prop :=
  ∀ f ∈ fs, f.header.msgType = .keepalive ∨ f.header.msgType = .fileData

/-- The data frames among them. -/
def dataFrames (fs : List Frame) : List Frame :=
  fs.filter fun f => f.header.msgType ≠ .keepalive

theorem dataFrames_keepalive (h : f.header.msgType = .keepalive) :
    dataFrames (f :: fs) = dataFrames fs := by
  simp [dataFrames, h]

theorem dataFrames_fileData (h : f.header.msgType = .fileData) :
    dataFrames (f :: fs) = f :: dataFrames fs := by
  simp [dataFrames, h]

theorem kinds_cons_iff : Kinds (f :: fs) ↔
    (f.header.msgType = .keepalive ∨ f.header.msgType = .fileData) ∧ Kinds fs := by
  rw [Kinds, List.forall_mem_cons]
  rfl

/-- **A worker takes what makes its chunk whole and is then a stream.** -/
theorem takes_iff {current : Option Current} (hopen : Open files current buf) :
    files.Takes blake3 current buf fs ↔
      Kinds fs ∧ files.Rest blake3 current buf (dataFrames fs) := by
  induction fs generalizing current buf with
  | nil =>
      rw [takes_nil_iff]
      refine ⟨fun h => ?_, fun ⟨_, h⟩ => ?_⟩
      · rw [h]
        exact ⟨fun f hf => absurd hf List.not_mem_nil, Runs.nil⟩
      · cases current with
        | none => rfl
        | some c =>
            obtain ⟨run, more, heq, hrun, -⟩ := h
            have hnil := (List.append_eq_nil_iff.1 heq.symm).1
            exact absurd hnil (hrun.ne_nil (hopen c rfl).2)
  | cons f fs ih =>
      rw [kinds_cons_iff, Takes]
      cases htype : f.header.msgType with
      | keepalive =>
          rw [dataFrames_keepalive htype, ih hopen]
          simp
      | fileData =>
          -- with a chunk in progress, by the frame's two ways to go on with it
          have hsome : ∀ {c : Current} {buf : List UInt8}, Open files (some c) buf →
              ((∃ d filled, acceptFrame files (some c) buf f.header = .ok (d, filled) ∧
                if (filled ++ f.payload).length = d.expectedLen then
                  files.Commits blake3 d (filled ++ f.payload) ∧ files.Takes blake3 none [] fs
                else files.Takes blake3 (some d) (filled ++ f.payload) fs) ↔
              Kinds fs ∧ files.Rest blake3 (some c) buf (f :: dataFrames fs)) := by
            intro c buf hopen
            obtain ⟨⟨s, hs, hof⟩, hlt⟩ := hopen c rfl
            rw [rest_cons_iff hlt]
            constructor
            · rintro ⟨d, filled, hacc, hrest⟩
              obtain ⟨rfl, rfl, -, hadm⟩ := (acceptFrame_some_iff c d).1 hacc
              obtain ⟨hid, hoff, hfits⟩ := (admitFrame_ok_iff d _ _).1 hadm
              rw [← f.length_eq, ← List.length_append] at hfits
              split at hrest
              · next hfull =>
                  obtain ⟨hkinds, hruns⟩ := (ih Open.none).1 hrest.2
                  exact ⟨hkinds, hid, hoff, .inl ⟨hfull, hrest.1, hruns⟩⟩
              · next hne =>
                  have hshort := Nat.lt_of_le_of_ne hfits hne
                  have hopen' : Open files (some d) (filled ++ f.payload) := by
                    rintro _ ⟨⟩
                    exact ⟨⟨s, hs, hof⟩, hshort⟩
                  obtain ⟨hkinds, hmore⟩ := (ih hopen').1 hrest
                  exact ⟨hkinds, hid, hoff, .inr ⟨hshort, hmore⟩⟩
            · rintro ⟨hkinds, hid, hoff, hwhich⟩
              have hfits : buf.length + f.header.length.toNat ≤ c.expectedLen := by
                rw [← f.length_eq, ← List.length_append]
                rcases hwhich with ⟨hfull, -⟩ | ⟨hshort, -⟩
                · exact Nat.le_of_eq hfull
                · exact Nat.le_of_lt hshort
              refine ⟨c, buf, (acceptFrame_some_iff c c).2 ⟨rfl, rfl, ⟨s, hid ▸ hs⟩,
                (admitFrame_ok_iff c _ _).2 ⟨hid, hoff, hfits⟩⟩, ?_⟩
              rcases hwhich with ⟨hfull, hcommits, hruns⟩ | ⟨hshort, hmore⟩
              · rw [if_pos hfull]
                exact ⟨hcommits, (ih Open.none).2 ⟨hkinds, hruns⟩⟩
              · rw [if_neg (Nat.ne_of_lt hshort)]
                refine (ih ?_).2 ⟨hkinds, hmore⟩
                rintro _ ⟨⟩
                exact ⟨⟨s, hs, hof⟩, hshort⟩
          rw [dataFrames_fileData htype]
          have hkeep : MsgType.fileData ≠ MsgType.keepalive := by decide
          simp only [hkeep, false_and, false_or, true_and, or_true]
          cases current with
          | some c => exact hsome hopen
          | none =>
              -- with none, the frame opens one
              rw [show files.Rest blake3 none buf (f :: dataFrames fs)
                = files.Runs blake3 (f :: dataFrames fs) from rfl, runs_cons_iff]
              have hfirst : ∀ c : Current, (∃ s, files.lookup c.fileId = some s ∧ c.Of s) →
                  Open files (some c) [] := by
                rintro _ ⟨s, hs, hof⟩ c ⟨⟩
                refine ⟨⟨s, hs, hof⟩, ?_⟩
                rw [hof.len_eq]
                exact s.layout.len_pos hof.index
              constructor
              · rintro ⟨c, filled, hacc, hrest⟩
                obtain ⟨hc, hacc'⟩ := (acceptFrame_none_iff c).1 hacc
                obtain ⟨hkinds, hmore⟩ := (hsome (hfirst c hc)).1 ⟨c, filled, hacc', hrest⟩
                exact ⟨hkinds, c, hc, hmore⟩
              · rintro ⟨hkinds, c, hc, hmore⟩
                obtain ⟨d, filled, hacc, hrest⟩ := (hsome (hfirst c hc)).2 ⟨hkinds, hmore⟩
                obtain rfl := ((acceptFrame_some_iff c d).1 hacc).1
                exact ⟨d, filled, (acceptFrame_none_iff d).2 ⟨hc, hacc⟩, hrest⟩
      | control => simp
      | fileEnd => simp

end Files

end

end AetherLink
