import AetherLink.Core.Recv.Host
import AetherLink.Proofs.Stale

set_option autoImplicit false

/-! # A reception beside others

What a reception rests on when others write to the disk as well. Its staging files keep their names
whatever the others do (`Reception.Bound`), as long as nobody's destination is another's record or
temporary file. That its bitmaps and its snapshots are true of the file at `dest`
(`Reception.Linked`) it keeps under steps of others that touch none of its temporary files and reach
the file with lawful operations only (`Reception.Undisturbed`). -/

namespace AetherLink

open Bytes Storage

@[simp] theorem Session.checkpointOf_onDisk (s : Session) (d : FileSystem) (a : Option Nat) :
    (s.onDisk d).checkpointOf a = s.checkpointOf a := rfl

/-! ## The files of a reception -/

/-- The file whose staging file is open and that is not entered into the session yet, with the bits
    found so far. -/
def OfferPc.pending : OfferPc → Option FileState
  | .next => none
  | .loading _ c sink _ => some (c.fileState sink (ChunkBitmap.new c.layout.count))
  | .rebuilding _ c sink bitmap _ => some (c.fileState sink bitmap)
  | .noting _ c sink bitmap => some (c.fileState sink bitmap)

/-- `run` has this file open. -/
inductive Phase.Has : Phase → FileState → Prop
  | noted {st : OfferState} {pc : OfferPc} {todo : List (FileEntry × EntryIo)} {id : UInt64}
      {fs : FileState} (h : st.files.lookup id = some fs) : Has (.offered st pc todo) fs
  | pending {st : OfferState} {pc : OfferPc} {todo : List (FileEntry × EntryIo)} {fs : FileState}
      (h : pc.pending = some fs) : Has (.offered st pc todo) fs
  | received {p : Params} {s : Session} {id : UInt64} {fs : FileState}
      (h : s.env.files.lookup id = some fs) : Has (.receiving p s) fs

theorem Phase.Has.of_lookup {ph : Phase} {p : Params} {s : Session} (hphase : ph = .receiving p s)
    {id : UInt64} {fs : FileState} (h : s.env.files.lookup id = some fs) : ph.Has fs :=
  hphase ▸ .received h

/-- The file is the one of the checked entry. -/
structure Checked.Made (c : Checked) (fs : FileState) : Prop where
  path : fs.sink.path = c.dest
  key : fs.key = c.key
  layout : fs.layout = c.layout
  chunkHashes : fs.chunkHashes = c.chunkHashes

theorem Checked.Made.of_sameFile {c : Checked} {fs fs' : FileState} (h : c.Made fs)
    (hsame : fs.SameFile fs') : c.Made fs' where
  path := by rw [hsame.sink, h.path]
  key := by rw [hsame.key, h.key]
  layout := by rw [hsame.layout, h.layout]
  chunkHashes := by rw [hsame.chunkHashes, h.chunkHashes]

/-- Neither destination is the record or the temporary file of the other. -/
structure DestsApart (q q' : FilePath) : Prop where
  state : q ≠ statePath q'
  tmp : q ≠ tmpPath q'
  state' : q' ≠ statePath q
  tmp' : q' ≠ tmpPath q

theorem DestsApart.symm {q q' : FilePath} (h : DestsApart q q') : DestsApart q' q :=
  ⟨h.state', h.tmp', h.state, h.tmp⟩

theorem destsApart_self {q : FilePath} (h : Named q) : DestsApart q q :=
  ⟨(statePath_ne_self h.1).symm, (tmpPath_ne_self h).symm, (statePath_ne_self h.1).symm,
    (tmpPath_ne_self h).symm⟩

/-- `dest` has nothing to do with the record and the temporary file of `q`, and `q` is not its
    record. -/
structure OffRecord (dest q : FilePath) : Prop where
  state : q ≠ statePath dest
  state' : dest ≠ statePath q
  tmp' : dest ≠ tmpPath q

/-! ## What it rests on -/

/-- The hash has no collision on what is offered. -/
def Offering.DigestsIn (blake3 : Blake3) (T : Set Hash) (o : Offering) : Prop :=
  ∀ x ∈ o.entries, ∀ c : Checked, c.For blake3 o.config o.outputDir o.chunkSize x.1 →
    c.key.rootHash ∈ T ∧ ∀ h ∈ c.chunkHashes, h ∈ T

/-- The offer loop between two of its steps: the paths are distinct, and what is open is laid out as
    its entry says. -/
structure Reception.Going (blake3 : Blake3) (T : Set Hash) (r : Reception) (st : OfferState)
    (pc : OfferPc) (todo : List (FileEntry × EntryIo)) : Prop where
  digests : r.offering.DigestsIn blake3 T
  entries : ∀ x ∈ todo, x ∈ r.offering.entries
  seen : ∀ c ∈ r.opened, c.safePath ∈ st.seenPaths ∧
    c.dest = r.offering.outputDir ++ pathComponents c.safePath
  paths : ∀ id id' fs fs', st.files.lookup id = some fs → st.files.lookup id' = some fs' →
    fs.sink.path = fs'.sink.path → id = id'
  fresh : ∀ fs, pc.pending = some fs → fs.sink.layout = fs.layout ∧
    ∀ id fs', st.files.lookup id = some fs' → fs'.sink.path ≠ fs.sink.path
  loading : ∀ x c sink preexisting, pc = .loading x c sink preexisting →
    c ∈ r.opened ∧ sink.path = c.dest
  wf : ∀ fs, (Phase.offered st pc todo).Has fs → fs.bitmap.Wf

/-- What holds of a reception however it is disturbed. -/
structure Reception.Bound (blake3 : Blake3) (T : Set Hash) (d : FileSystem) (r : Reception) :
    Prop where
  opened : ∀ c ∈ r.opened, Named c.dest ∧ c.key.Vouches blake3 T c.layout c.chunkHashes
  made : ∀ fs, r.phase.Has fs → ∃ c ∈ r.opened, c.Made fs
  named : ∀ fs, r.phase.Has fs → d.node fs.sink.path = some (.file fs.sink.ino)
  going : ∀ st pc todo, r.phase = .offered st pc todo → r.Going blake3 T st pc todo
  receiving : ∀ p s, r.phase = .receiving p s →
    p.blake3 = blake3 ∧ s.Fits blake3 ∧ (s.onDisk d).Wired

/-- What holds of a reception whose files no later one has opened: what it holds of the file at `dest`
    is there. -/
structure Reception.Linked (blake3 : Blake3) (T : Set Hash) (dest : FilePath) (d : FileSystem)
    (r : Reception) : Prop where
  going : ∀ st pc todo, r.phase = .offered st pc todo → ∀ fs, r.phase.Has fs →
    fs.sink.path = dest → fs.bitmap.count = fs.layout.count ∧
      Truthful blake3 fs.layout fs.chunkHashes (d.data fs.sink.ino) fs.bitmap
  receiving : ∀ p s, r.phase = .receiving p s → (s.onDisk d).Linked blake3 T dest

namespace Reception.Bound

variable {blake3 : Blake3} {T : Set Hash} {d d' : FileSystem} {r : Reception}

/-- The digests of what is open are among those on which the hash has no collision. -/
theorem vouches (h : r.Bound blake3 T d) {fs : FileState} (hfs : r.phase.Has fs) :
    fs.key.Vouches blake3 T fs.layout fs.chunkHashes := by
  obtain ⟨c, hc, hmade⟩ := h.made fs hfs
  rw [hmade.key, hmade.layout, hmade.chunkHashes]
  exact (h.opened c hc).2

theorem named_path (h : r.Bound blake3 T d) {fs : FileState} (hfs : r.phase.Has fs) :
    Named fs.sink.path := by
  obtain ⟨c, hc, hmade⟩ := h.made fs hfs
  rw [hmade.path]
  exact (h.opened c hc).1

/-- **Whatever leaves the staging files under their names leaves a reception bound.** -/
theorem frame (h : r.Bound blake3 T d)
    (hnamed : ∀ fs, r.phase.Has fs → d'.node fs.sink.path = some (.file fs.sink.ino)) :
    r.Bound blake3 T d' := by
  refine ⟨h.opened, h.made, hnamed, h.going, fun p s hphase => ?_⟩
  obtain ⟨hblake3, hfits, hwired⟩ := h.receiving p s hphase
  exact ⟨hblake3, hfits, fun id st hst => hnamed st (.of_lookup hphase hst), hwired.distinct,
    hwired.handles⟩

end Reception.Bound

/-! ## Steps of others -/

/-- What others may do to the disk under a reception whose files are its own: the staging files keep
    their names, lawful operations reach the file at `dest`, and no temporary file is touched. -/
structure Reception.Undisturbed (blake3 : Blake3) (dest : FilePath) (d d' : FileSystem)
    (r : Reception) : Prop where
  named : ∀ fs, r.phase.Has fs → d'.node fs.sink.path = some (.file fs.sink.ino)
  lawful : ∀ fs, r.phase.Has fs → fs.sink.path = dest → ∃ ops,
    (∀ op ∈ ops, Lawful blake3 fs.layout fs.chunkHashes op) ∧
      d'.data fs.sink.ino = applyAll (d.data fs.sink.ino) ops
  tmps : ∀ fs, r.phase.Has fs → Untouched d d' (tmpPath fs.sink.path)

/-- A reception none of whose names is touched is not disturbed. -/
theorem Reception.Bound.undisturbed {blake3 : Blake3} {T : Set Hash} {dest : FilePath}
    {d d' : FileSystem} {r : Reception} (h : r.Bound blake3 T d)
    (hpaths : ∀ fs, r.phase.Has fs → Untouched d d' fs.sink.path)
    (htmps : ∀ fs, r.phase.Has fs → Untouched d d' (tmpPath fs.sink.path)) :
    r.Undisturbed blake3 dest d d' where
  named := fun fs hfs => ((hpaths fs hfs).node _).2 (h.named fs hfs)
  lawful := fun fs hfs _ => ⟨[], nofun, (hpaths fs hfs).data _ (h.named fs hfs)⟩
  tmps := htmps

/-- A checkpoint whose temporary file is not touched goes on as if it were alone. -/
theorem CheckpointPc.Writing.untouched {blake3 : Blake3} {d d' : FileSystem} {st : FileState}
    {pc : CheckpointPc} (h : pc.Writing blake3 d st) (hu : Untouched d d' (tmpPath st.sink.path)) :
    pc.Writing blake3 d' st := by
  cases pc with
  | writeTmp snap tmp done => exact ⟨(hu.node tmp).2 h.1, (hu.data tmp h.1).trans h.2⟩
  | syncTmp snap tmp => exact ⟨(hu.node tmp).2 h.1, (hu.data tmp h.1).trans h.2⟩
  | renameTmp snap tmp =>
      exact ⟨(hu.node tmp).2 h.1, (hu.data tmp h.1).trans h.2.1, hu.pending tmp h.1 h.2.2⟩
  | _ => trivial

section Frame

variable {blake3 : Blake3} {T : Set Hash} (hcf : CollisionFreeOn blake3 T) {dest : FilePath}
  {d d' : FileSystem}
include hcf

/-- **A session beside others.** -/
theorem Session.Linked.frame {s : Session} (h : (s.onDisk d).Linked blake3 T dest)
    (hnamed : ∀ id st, s.env.files.lookup id = some st →
      d'.node st.sink.path = some (.file st.sink.ino))
    (hlawful : ∀ id st, s.env.files.lookup id = some st → st.sink.path = dest → ∃ ops,
      (∀ op ∈ ops, Lawful blake3 st.layout st.chunkHashes op) ∧
        d'.data st.sink.ino = applyAll (d.data st.sink.ino) ops)
    (htmps : ∀ id st, s.env.files.lookup id = some st → Untouched d d' (tmpPath st.sink.path))
    (hrecord : RecordTrue blake3 T dest d') : (s.onDisk d').Linked blake3 T dest where
  tidy := {
    fits := h.tidy.fits
    wired := ⟨hnamed, h.tidy.wired.distinct, h.tidy.wired.handles⟩
    locks := ⟨h.tidy.locks.taken, h.tidy.locks.unique, h.tidy.locks.ended⟩
    sound := ⟨h.tidy.sound.wf, h.tidy.sound.named, h.tidy.sound.paths⟩
    apart := h.tidy.apart
    writing := fun a id pc st hcp hst =>
      (h.tidy.writing a id pc st hcp hst).untouched (htmps id st hst) }
  off := h.off
  vouches := h.vouches
  truth := by
    intro id st hst hpath
    have htruth := h.truth id st hst hpath
    have hT := (h.vouches id st hst hpath).hashes_mem
    obtain ⟨ops, hops, hdata⟩ := hlawful id st hst hpath
    refine ⟨htruth.wf, htruth.count_eq, fun i hi => ?_, fun w hw => ?_⟩
    · rw [onDisk_disk, hdata]
      exact held_applyAll hcf hT hops (htruth.bits i hi)
    · rw [onDisk_disk, hdata]
      exact (htruth.inPlace w hw).applyAll hcf (h.tidy.fits w hw) hst hT hops
  snapshots := by
    intro a id cp b st hcp hsnap hst hpath
    obtain ⟨hwf, hcount, hbits⟩ := h.snapshots a id cp b st hcp hsnap hst hpath
    obtain ⟨ops, hops, hdata⟩ := hlawful id st hst hpath
    refine ⟨hwf, hcount, fun i hi => ?_⟩
    rw [onDisk_disk, hdata]
    exact held_applyAll hcf (h.vouches id st hst hpath).hashes_mem hops (hbits i hi)
  record := hrecord

/-- **A reception beside others.** -/
theorem Reception.Linked.frame {r : Reception} (h : r.Linked blake3 T dest d)
    (hbound : r.Bound blake3 T d) (hu : r.Undisturbed blake3 dest d d')
    (hrecord : RecordTrue blake3 T dest d') : r.Linked blake3 T dest d' where
  going := by
    intro st pc todo hphase fs hfs hpath
    obtain ⟨hcount, hbits⟩ := h.going st pc todo hphase fs hfs hpath
    obtain ⟨ops, hops, hdata⟩ := hu.lawful fs hfs hpath
    refine ⟨hcount, fun i hi => ?_⟩
    rw [hdata]
    exact held_applyAll hcf (hbound.vouches hfs).hashes_mem hops (hbits i hi)
  receiving := by
    intro p s hphase
    exact (h.receiving p s hphase).frame hcf (fun id st hst => hu.named st (.of_lookup hphase hst))
      (fun id st hst => hu.lawful st (.of_lookup hphase hst))
      (fun id st hst => hu.tmps st (.of_lookup hphase hst)) hrecord

end Frame

/-! ## Steps of its own -/

/-- However `SinkFile::create` ends, every file keeps its name. -/
theorem SinkFile.create_keeps {fs : FileSystem} (path : FilePath) (size : UInt64) (chunkSize : UInt32)
    (io : SinkIo) {q : FilePath} {i : Nat} (hi : fs.node q = some (.file i)) :
    (SinkFile.create fs path size chunkSize io).1.node q = some (.file i) := by
  by_cases hq : q = path
  · subst hq
    exact (SinkFile.create_resizes fs q size chunkSize io hi).1
  · exact ((SinkFile.create_untouched fs size chunkSize io hq).node i).2 hi

/-- What a look for a record finds: the record's bits or none. -/
theorem Reception.consult_pending (blake3 : Blake3) (resume : Bool) (d : FileSystem)
    (x : FileEntry × EntryIo) (c : Checked) (sink : SinkFile) (preexisting : Bool) :
    ∃ b, (consult blake3 resume d x c sink preexisting).pending = some (c.fileState sink b) ∧
      (Resume.load blake3 d c.dest c.key = some b ∨ b = ChunkBitmap.new c.layout.count ∨
        b = ChunkBitmap.new sink.layout.count) := by
  unfold consult
  split
  · exact ⟨_, rfl, Or.inr (Or.inl rfl)⟩
  · split
    · next recorded hload =>
        refine ⟨_, rfl, Or.inl ?_⟩
        split at hload
        · exact hload
        · cases hload
    · split
      · exact ⟨_, rfl, Or.inr (Or.inr rfl)⟩
      · exact ⟨_, rfl, Or.inr (Or.inl rfl)⟩

theorem Reception.consult_ne_loading (blake3 : Blake3) (resume : Bool) (d : FileSystem)
    (x : FileEntry × EntryIo) (c : Checked) (sink : SinkFile) (preexisting : Bool)
    (y : FileEntry × EntryIo) (c' : Checked) (sink' : SinkFile) (preexisting' : Bool) :
    consult blake3 resume d x c sink preexisting ≠ .loading y c' sink' preexisting' := by
  unfold consult
  split
  · exact OfferPc.noConfusion
  · split
    · exact OfferPc.noConfusion
    · split <;> exact OfferPc.noConfusion

namespace Reception

variable {blake3 : Blake3} {T : Set Hash} {dest : FilePath} {d d' : FileSystem} {r : Reception}
  {st : OfferState} {pc pc' : OfferPc} {todo : List (FileEntry × EntryIo)}

/-- A reception that `run` has returned from has no files. -/
theorem Bound.refused (opened : List Checked) (error : Error)
    (hopened : ∀ c ∈ opened, Named c.dest ∧ c.key.Vouches blake3 T c.layout c.chunkHashes) :
    (⟨r.offering, opened, .refused error⟩ : Reception).Bound blake3 T d where
  opened := hopened
  made := fun fs hfs => by cases hfs
  named := fun fs hfs => by cases hfs
  going := fun st pc todo hphase => by cases hphase
  receiving := fun p s hphase => by cases hphase

theorem Linked.refused (opened : List Checked) (error : Error) :
    (⟨r.offering, opened, .refused error⟩ : Reception).Linked blake3 T dest d where
  going := fun st pc todo hphase => by cases hphase
  receiving := fun p s hphase => by cases hphase

/-- The loop finds out more about the open file: its bits, well-formed ones. -/
theorem Bound.goOn (h : r.Bound blake3 T d) (hphase : r.phase = .offered st pc todo)
    {fs fs' : FileState} (hpc : pc.pending = some fs) (hpc' : pc'.pending = some fs')
    (hsame : fs.SameFile fs') (hwf : fs'.bitmap.Wf)
    (hlater : ∀ x c sink preexisting, pc' ≠ .loading x c sink preexisting) :
    ({ r with phase := .offered st pc' todo } : Reception).Bound blake3 T d := by
  have hgoing := h.going st pc todo hphase
  have hold : ∀ fs₁, (Phase.offered st pc' todo).Has fs₁ →
      (∃ id, st.files.lookup id = some fs₁) ∨ fs₁ = fs' := by
    intro fs₁ hfs₁
    cases hfs₁ with
    | noted hst => exact Or.inl ⟨_, hst⟩
    | pending hp => exact Or.inr (Option.some.inj (hp.symm.trans hpc'))
  have hpending : r.phase.Has fs := hphase ▸ .pending hpc
  have hnoted : ∀ {id fs₁}, st.files.lookup id = some fs₁ → r.phase.Has fs₁ :=
    fun hst => hphase ▸ .noted hst
  refine ⟨h.opened, fun fs₁ hfs₁ => ?_, fun fs₁ hfs₁ => ?_, fun st₁ pc₁ todo₁ heq => ?_,
    fun p s heq => by cases heq⟩
  · rcases hold fs₁ hfs₁ with ⟨id, hst⟩ | rfl
    · exact h.made fs₁ (hnoted hst)
    · obtain ⟨c, hc, hmade⟩ := h.made fs hpending
      exact ⟨c, hc, hmade.of_sameFile hsame⟩
  · rcases hold fs₁ hfs₁ with ⟨id, hst⟩ | rfl
    · exact h.named fs₁ (hnoted hst)
    · rw [hsame.sink]
      exact h.named fs hpending
  · cases heq
    refine ⟨hgoing.digests, hgoing.entries, hgoing.seen, hgoing.paths, fun fs₁ hfs₁ => ?_,
      fun x c sink preexisting heq => absurd heq (hlater x c sink preexisting), fun fs₁ hfs₁ => ?_⟩
    · obtain rfl := Option.some.inj (hpc'.symm.trans hfs₁)
      rw [hsame.sink, hsame.layout]
      exact hgoing.fresh fs hpc
    · rcases hold fs₁ hfs₁ with ⟨id, hst⟩ | rfl
      · exact hgoing.wf fs₁ (.noted hst)
      · exact hwf

theorem Linked.goOn (h : r.Linked blake3 T dest d) (hphase : r.phase = .offered st pc todo)
    {fs' : FileState} (hpc' : pc'.pending = some fs')
    (htrue : fs'.sink.path = dest → fs'.bitmap.count = fs'.layout.count ∧
      Truthful blake3 fs'.layout fs'.chunkHashes (d.data fs'.sink.ino) fs'.bitmap) :
    ({ r with phase := .offered st pc' todo } : Reception).Linked blake3 T dest d where
  going := by
    intro st₁ pc₁ todo₁ heq fs hfs hpath
    cases heq
    cases hfs with
    | noted hst => exact h.going st pc todo hphase fs (hphase ▸ .noted hst) hpath
    | pending hp =>
        obtain rfl := Option.some.inj (hp.symm.trans hpc')
        exact htrue hpath
  receiving := fun p s heq => by cases heq

/-- A file is entered into the session with the bits found. -/
theorem Bound.note (h : r.Bound blake3 T d) {x : FileEntry × EntryIo} {c : Checked}
    {sink : SinkFile} {b : ChunkBitmap} (hphase : r.phase = .offered st (.noting x c sink b) todo)
    (chunkSize : UInt32) :
    ({ r with phase := .offered (st.note chunkSize x.1 c sink b) .next todo } : Reception).Bound
      blake3 T d := by
  have hgoing := h.going st _ todo hphase
  have hlookup : ∀ id fs, (st.note chunkSize x.1 c sink b).files.lookup id = some fs →
      (id = x.1.fileId ∧ fs = c.fileState sink b) ∨ st.files.lookup id = some fs := by
    intro id fs hfs
    by_cases hid : id = x.1.fileId
    · subst hid
      rw [OfferState.note, AList.lookup_insert, Option.some.injEq] at hfs
      exact Or.inl ⟨rfl, hfs.symm⟩
    · rw [OfferState.note, AList.lookup_insert_ne hid] at hfs
      exact Or.inr hfs
  have hold : ∀ fs, (Phase.offered (st.note chunkSize x.1 c sink b) .next todo).Has fs →
      r.phase.Has fs := by
    intro fs hfs
    rw [hphase]
    cases hfs with
    | noted hst =>
        rcases hlookup _ fs hst with ⟨-, rfl⟩ | hst
        · exact .pending rfl
        · exact .noted hst
    | pending hp => cases hp
  obtain ⟨-, hnew⟩ := hgoing.fresh (c.fileState sink b) rfl
  refine ⟨h.opened, fun fs hfs => h.made fs (hold fs hfs), fun fs hfs => h.named fs (hold fs hfs),
    fun st₁ pc₁ todo₁ heq => ?_, fun p s heq => by cases heq⟩
  cases heq
  refine ⟨hgoing.digests, hgoing.entries, hgoing.seen, fun id id' fs fs' hfs hfs' hpath => ?_,
    fun fs hfs => (by cases hfs), fun x c sink preexisting heq => (by cases heq),
    fun fs hfs => hgoing.wf fs (hphase ▸ hold fs hfs)⟩
  rcases hlookup id fs hfs with ⟨rfl, rfl⟩ | hfs <;>
    rcases hlookup id' fs' hfs' with ⟨rfl, rfl⟩ | hfs'
  · rfl
  · exact absurd hpath.symm (hnew id' fs' hfs')
  · exact absurd hpath (hnew id fs hfs)
  · exact hgoing.paths id id' fs fs' hfs hfs' hpath

theorem Linked.note (h : r.Linked blake3 T dest d) {x : FileEntry × EntryIo} {c : Checked}
    {sink : SinkFile} {b : ChunkBitmap} (hphase : r.phase = .offered st (.noting x c sink b) todo)
    (chunkSize : UInt32) :
    ({ r with phase := .offered (st.note chunkSize x.1 c sink b) .next todo } : Reception).Linked
      blake3 T dest d where
  going := by
    intro st₁ pc₁ todo₁ heq fs hfs hpath
    cases heq
    refine h.going st _ todo hphase fs ?_ hpath
    rw [hphase]
    cases hfs with
    | @noted _ _ _ id _ hst =>
        by_cases hid : id = x.1.fileId
        · subst hid
          rw [OfferState.note, AList.lookup_insert, Option.some.injEq] at hst
          exact .pending (congrArg some hst)
        · rw [OfferState.note, AList.lookup_insert_ne hid] at hst
          exact .noted hst
    | pending hp => cases hp
  receiving := fun p s heq => by cases heq

section Opening

variable {x : FileEntry × EntryIo} {c : Checked} (hphase : r.phase = .offered st .next (x :: todo))
  (hcheck : checkEntry blake3 r.offering.config r.offering.outputDir r.offering.chunkSize
    st.seenPaths x.1 = .ok c)
include hphase hcheck

/-- What is opened next is named and stands for its digests. -/
theorem Bound.opens (h : r.Bound blake3 T d) :
    ∀ c' ∈ c :: r.opened, Named c'.dest ∧ c'.key.Vouches blake3 T c'.layout c'.chunkHashes := by
  intro c' hc'
  rcases List.mem_cons.1 hc' with rfl | hc'
  · obtain ⟨hfor, -⟩ := checkEntry_ok hcheck
    have hgoing := h.going st .next _ hphase
    have hdigests := hgoing.digests x (hgoing.entries x List.mem_cons_self) c' hfor
    exact ⟨hfor.named, hfor.commits, hdigests.1, hdigests.2⟩
  · exact h.opened c' hc'

/-- No file of the session is at the destination that is opened next. -/
theorem Bound.dest_fresh (h : r.Bound blake3 T d) {fs : FileState} (hfs : r.phase.Has fs) :
    fs.sink.path ≠ c.dest := by
  obtain ⟨hfor, hnew⟩ := checkEntry_ok hcheck
  obtain ⟨c', hc', hmade⟩ := h.made fs hfs
  obtain ⟨hseen, hdest⟩ := (h.going st .next _ hphase).seen c' hc'
  rw [hmade.path, hdest, hfor.dest_eq]
  exact fun heq => hnew (dest_inj heq ▸ hseen)

variable {sink : SinkFile} (hcreate : SinkFile.create d c.dest x.1.sizeBytes r.offering.chunkSize
    x.2.sink = (d', .ok sink)) (preexisting : Bool)
include hcreate

/-- **A staging file is opened.** -/
theorem Bound.create (h : r.Bound blake3 T d) :
    (⟨r.offering, c :: r.opened, .offered { st with seenPaths := c.safePath :: st.seenPaths }
      (.loading x c sink preexisting) todo⟩ : Reception).Bound blake3 T d' := by
  obtain ⟨hfor, -⟩ := checkEntry_ok hcheck
  have hgoing := h.going st .next _ hphase
  have hsink := SinkFile.create_ok hcreate
  have hold : ∀ {id fs}, st.files.lookup id = some fs → r.phase.Has fs := fun hst => hphase ▸ .noted hst
  refine ⟨h.opens hphase hcheck, fun fs hfs => ?_, fun fs hfs => ?_, fun st₁ pc₁ todo₁ heq => ?_,
    fun p s heq => by cases heq⟩
  · cases hfs with
    | noted hst =>
        obtain ⟨c', hc', hmade⟩ := h.made fs (hold hst)
        exact ⟨c', List.mem_cons_of_mem _ hc', hmade⟩
    | pending hp =>
        obtain rfl := Option.some.inj hp
        exact ⟨c, List.mem_cons_self, hsink.path_eq, rfl, rfl, rfl⟩
  · cases hfs with
    | noted hst =>
        have hnode := SinkFile.create_keeps c.dest x.1.sizeBytes r.offering.chunkSize x.2.sink
          (h.named fs (hold hst))
        rwa [hcreate] at hnode
    | pending hp =>
        obtain rfl := Option.some.inj hp
        rw [Checked.fileState, hsink.path_eq]
        exact hsink.node
  · cases heq
    refine ⟨hgoing.digests, fun y hy => hgoing.entries y (List.mem_cons_of_mem _ hy),
      fun c' hc' => ?_, hgoing.paths, fun fs hfs => ?_, fun y c' sink' preexisting' heq => ?_,
      fun fs hfs => ?_⟩
    · rcases List.mem_cons.1 hc' with rfl | hc'
      · exact ⟨List.mem_cons_self, hfor.dest_eq⟩
      · exact ⟨List.mem_cons_of_mem _ (hgoing.seen c' hc').1, (hgoing.seen c' hc').2⟩
    · obtain rfl := Option.some.inj hfs
      refine ⟨Except.ok.inj (hsink.layout_ok.symm.trans hfor.layout_ok), fun id fs' hfs' => ?_⟩
      rw [Checked.fileState, hsink.path_eq]
      exact h.dest_fresh hphase hcheck (hold hfs')
    · cases heq
      exact ⟨List.mem_cons_self, hsink.path_eq⟩
    · cases hfs with
      | noted hst => exact hgoing.wf fs (.noted hst)
      | pending hp =>
          obtain rfl := Option.some.inj hp
          exact ChunkBitmap.wf_new _

theorem Linked.create (h : r.Linked blake3 T dest d) (hbound : r.Bound blake3 T d) :
    (⟨r.offering, c :: r.opened, .offered { st with seenPaths := c.safePath :: st.seenPaths }
      (.loading x c sink preexisting) todo⟩ : Reception).Linked blake3 T dest d' where
  going := by
    intro st₁ pc₁ todo₁ heq fs hfs hpath
    cases heq
    cases hfs with
    | noted hst =>
        have hfs : r.phase.Has fs := hphase ▸ .noted hst
        obtain ⟨hcount, hbits⟩ := h.going st .next _ hphase fs hfs hpath
        have hdata := (SinkFile.create_ok hcreate).data_of_node
          (hbound.dest_fresh hphase hcheck hfs) (hbound.named fs hfs)
        rw [hdata.1]
        exact ⟨hcount, hbits⟩
    | pending hp =>
        obtain rfl := Option.some.inj hp
        exact ⟨rfl, Resume.truthful_new _ _ _ _⟩
  receiving := fun p s heq => by cases heq

end Opening

/-- **`Accept` is written.** -/
theorem Bound.answer (h : r.Bound blake3 T d) (hphase : r.phase = .offered st .next [])
    (totalBytes checkpointBytes : UInt64) (streamCount : UInt32) :
    ({ r with
      phase := .receiving
        { blake3 := blake3, totalBytes := totalBytes, checkpointBytes := checkpointBytes }
        (Session.start { st with disk := d } streamCount) } : Reception).Bound blake3 T d := by
  have hgoing := h.going st .next [] hphase
  have hold : ∀ {id fs}, st.files.lookup id = some fs → r.phase.Has fs := fun hst => hphase ▸ .noted hst
  refine ⟨h.opened, fun fs hfs => ?_, fun fs hfs => ?_, fun st₁ pc₁ todo₁ heq => (by cases heq),
    fun p s heq => ?_⟩
  · cases hfs with
    | received hst => exact h.made fs (hold hst)
  · cases hfs with
    | received hst => exact h.named fs (hold hst)
  · cases heq
    refine ⟨rfl, fun w hw => absurd hw List.not_mem_nil, fun id fs hst => h.named fs (hold hst),
      fun id id' fs fs' hfs hfs' hino => ?_, fun a id pc tmp id' fs hcp => ?_⟩
    · refine hgoing.paths id id' fs fs' hfs hfs' (d.node_inj _ _ _ (h.named fs (hold hfs)) ?_)
      rw [hino]
      exact h.named fs' (hold hfs')
    · rw [Session.checkpointOf_onDisk, Session.checkpointOf_start] at hcp
      cases hcp

theorem Linked.answer (h : r.Linked blake3 T dest d) (hbound : r.Bound blake3 T d)
    (hphase : r.phase = .offered st .next []) (hrecord : RecordTrue blake3 T dest d)
    (hapart : ∀ c ∈ r.opened, ∀ c' ∈ r.opened, DestsApart c.dest c'.dest)
    (hoff : ∀ c ∈ r.opened, OffRecord dest c.dest) (totalBytes checkpointBytes : UInt64)
    (streamCount : UInt32) :
    ({ r with
      phase := .receiving
        { blake3 := blake3, totalBytes := totalBytes, checkpointBytes := checkpointBytes }
        (Session.start { st with disk := d } streamCount) } : Reception).Linked blake3 T dest d where
  going := fun st₁ pc₁ todo₁ heq => by cases heq
  receiving := by
    intro p s heq
    obtain ⟨-, -, hwired⟩ := (hbound.answer hphase totalBytes checkpointBytes streamCount).receiving
      p s heq
    cases heq
    have hgoing := hbound.going st .next [] hphase
    have hold : ∀ {id fs}, st.files.lookup id = some fs → r.phase.Has fs :=
      fun hst => hphase ▸ .noted hst
    refine ⟨⟨fun w hw => absurd hw List.not_mem_nil, hwired, Session.locks_start { st with disk := d } streamCount,
      ⟨fun id fs hst => hgoing.wf fs (.noted hst), fun id fs hst => hbound.named_path (hold hst),
        hgoing.paths⟩, fun id id' fs fs' hfs hfs' => ?_, fun a id pc fs hcp => ?_⟩,
      fun id fs hst => ?_, fun id fs hst _ => hbound.vouches (hold hst), fun id fs hst hpath => ?_,
      fun a id cp b fs hcp => ?_, hrecord⟩
    · obtain ⟨c, hc, hmade⟩ := hbound.made fs (hold hfs)
      obtain ⟨c', hc', hmade'⟩ := hbound.made fs' (hold hfs')
      rw [hmade.path, hmade'.path]
      exact ⟨(hapart c' hc' c hc).state, (hapart c' hc' c hc).tmp⟩
    · rw [Session.checkpointOf_onDisk, Session.checkpointOf_start] at hcp
      cases hcp
    · obtain ⟨c, hc, hmade⟩ := hbound.made fs (hold hst)
      rw [hmade.path]
      exact ⟨(hoff c hc).state, (hoff c hc).state', (hoff c hc).tmp'⟩
    · obtain ⟨hcount, hbits⟩ := h.going st .next [] hphase fs (hold hst) hpath
      exact ⟨hgoing.wf fs (.noted hst), hcount, hbits, fun w hw => absurd hw List.not_mem_nil⟩
    · rw [Session.checkpointOf_onDisk, Session.checkpointOf_start] at hcp
      cases hcp

end Reception

end AetherLink
