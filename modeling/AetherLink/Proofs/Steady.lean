import AetherLink.Proofs.Durable

set_option autoImplicit false

/-! # A file among others, offered again and again

Offers are for many files, and what is offered beside a file may change from one session to the next.
As long as the file at `dest` is always offered under one key and no other destination gets in the way
of its record, a device keeps what it has recorded of it (`Device.Keeps`): through sessions of any
senders, stopped at any point, and through power losses. A bit that is recorded is for a chunk whose
bytes are on the device for good, and a bitmap that a session starts with is true of the file. -/

namespace AetherLink

open Bytes Storage

/-! ## Lasting chunks of one file among others -/

section Lasting

variable {blake3 : Blake3} {l : ChunkLayout} {hs : List Hash} {dest : FilePath} {d : FileSystem}
  {i : Nat}

/-- However `SinkFile::create` of another file ends, what the device has and what waits for an fsync
    stay. -/
theorem Lasting.create_ne (h : Lasting blake3 l hs dest d i) {path : FilePath} (size : UInt64)
    (chunkSize : UInt32) (io : SinkIo) (hne : dest ≠ path) :
    Lasting blake3 l hs dest (SinkFile.create d path size chunkSize io).1 i := by
  obtain ⟨ino, hino, hheld, hpending⟩ := h
  obtain ⟨made, hmade, hwhich⟩ := SinkFile.create_fst d path size chunkSize io
  have hmi := (hmade.node dest ino).2 hino
  rcases hwhich with heq | ⟨opened, j, pre, -, hopen, heq⟩
  · rw [heq]
    exact ⟨ino, hmi, (hmade.durable ino).symm ▸ hheld, (hmade.pending ino).symm ▸ hpending⟩
  · have hnode : opened.node dest = some (.file ino) := by
      rw [Disk.node_of_openRW_of_ne hopen hne]
      exact hmi
    have hother : ino ≠ j := by
      rintro rfl
      exact hne (opened.node_inj _ _ _ hnode (Disk.node_of_openRW hopen))
    obtain ⟨-, hdurable, hpend⟩ :=
      Disk.data_of_openRW hopen (hmade.nextIno ▸ d.node_lt dest ino hino)
    rw [heq]
    refine ⟨ino, by rw [Disk.node_writes, hnode], ?_, ?_⟩
    · rw [Disk.durable_writes, hdurable, hmade.durable]
      exact hheld
    · rw [Disk.pending_writes, if_neg hother, hpend, hmade.pending]
      exact hpending

/-- An effect that spares the file takes no chunk of it away. -/
theorem Lasting.spared {T : Set Hash} (hcf : CollisionFreeOn blake3 T) (hT : ∀ h ∈ hs, h ∈ T)
    (h : Lasting blake3 l hs dest d i) {e : Effect} (hspares : e.Spares d dest) :
    Lasting blake3 l hs dest (e.onDisk d) i := by
  obtain ⟨ino, hino, -, -⟩ := id h
  refine h.effect hcf hT hino hspares.1 fun op hop => ?_
  rw [hspares.2 ino hino] at hop
  exact absurd hop List.not_mem_nil

end Lasting

/-! ## The condition on offers -/

/-- Whatever else is offered, `dest` is offered under `key`, and no destination is the record of
    `dest` or has it for its record. -/
structure Offering.Steady (blake3 : Blake3) (dest : FilePath) (key : StateKey) (o : Offering) :
    Prop where
  apart : EntriesApart o.outputDir o.entries
  names : ∀ x ∈ o.entries, ∀ d ∈ x.1.dest o.outputDir,
    d ≠ statePath dest ∧ dest ≠ statePath d ∧ dest ≠ tmpPath d
  own : ∀ x ∈ o.entries, ∀ c : Checked, c.For blake3 o.config o.outputDir o.chunkSize x.1 →
    c.dest = dest → c.key = key

def DeviceAct.Steady (blake3 : Blake3) (dest : FilePath) (key : StateKey) : DeviceAct → Prop
  | .offer o => o.Steady blake3 dest key
  | _ => True

/-! ## One session -/

/-- A session over any files, of which the one at `dest`, if it is among them, is under `key`. -/
structure Session.Keeps (blake3 : Blake3) (key : StateKey) (l : ChunkLayout) (hs : List Hash)
    (dest : FilePath) (s : Session) : Prop where
  tidy : s.Tidy blake3
  off : ∀ id st, s.env.files.lookup id = some st →
    st.sink.path ≠ statePath dest ∧ dest ≠ statePath st.sink.path ∧ dest ≠ tmpPath st.sink.path
  own : ∀ id st, s.env.files.lookup id = some st → st.sink.path = dest →
    st.key = key ∧ st.layout = l ∧ st.chunkHashes = hs
  truth : ∀ id st, s.env.files.lookup id = some st → st.sink.path = dest → Truth blake3 s id st
  record : RecordLasts blake3 key l hs dest s.env.disk
  snapshots : ∀ a id cp b st, s.checkpointOf a = some (id, cp) → cp.snapshot? = some b →
    s.env.files.lookup id = some st → st.sink.path = dest →
    b.Wf ∧ b.count = l.count ∧
      ∀ i, b.has i = true → cp.Secures blake3 l hs dest s.env.disk i

namespace Session.Keeps

variable {p : Params} {T : Set Hash} (hcf : CollisionFreeOn p.blake3 T) {key : StateKey}
  {l : ChunkLayout} {hs : List Hash} (hT : ∀ h ∈ hs, h ∈ T) {dest : FilePath} {s s' : Session}
  {e : Effect}

/-- Only pieces of payloads reach the file. -/
theorem lawful (h : s.Keeps p.blake3 key l hs dest) (hmove : SessionMove p s s' e) {id : UInt64}
    {st : FileState} (hst : s.env.files.lookup id = some st) (hpath : st.sink.path = dest) :
    ∀ op ∈ e.ops s.env.disk st.sink.ino, Lawful p.blake3 l hs op := by
  obtain ⟨-, hl, hhs⟩ := h.own id st hst hpath
  have hlawful := h.tidy.lawful hmove hst
  rwa [hl, hhs] at hlawful

/-- A session does not rebind the name of its file. -/
theorem node_step (h : s.Keeps p.blake3 key l hs dest) (hmove : SessionMove p s s' e) {id : UInt64}
    {st : FileState} (hst : s.env.files.lookup id = some st) (hpath : st.sink.path = dest) :
    dest ∉ e.recordPaths :=
  fun hmem => h.tidy.apart.offDestinations hmove _ hmem id st hst hpath.symm

include hcf hT

/-- **What lasts of the file lasts through a step**, of a session that has the file or of one that
    has not. -/
theorem lasting_step (h : s.Keeps p.blake3 key l hs dest) (hmove : SessionMove p s s' e) {i : Nat}
    (hlasting : Lasting p.blake3 l hs dest s.env.disk i) :
    Lasting p.blake3 l hs dest s'.env.disk i := by
  rw [hmove.env_eq, Env.apply_disk]
  by_cases hfile : ∃ id st, s.env.files.lookup id = some st ∧ st.sink.path = dest
  · obtain ⟨id, st, hst, hpath⟩ := hfile
    exact hlasting.effect hcf hT (hpath ▸ h.tidy.wired.named id st hst)
      (h.node_step hmove hst hpath) (h.lawful hmove hst hpath)
  · refine hlasting.spared hcf hT (h.tidy.spares hmove fun id st hst => ?_)
    exact ⟨fun heq => hfile ⟨id, st, hst, heq.symm⟩, (h.off id st hst).2⟩

/-- **The record after a step.** -/
theorem record_step (hname : Named dest) (h : s.Keeps p.blake3 key l hs dest)
    (hmove : SessionMove p s s' e) : RecordLasts p.blake3 key l hs dest s'.env.disk := by
  rcases h.tidy.record_cases hmove hname fun id st hst => (h.off id st hst).1.symm with
    hkept | ⟨a, id, st, snap, tmp, hst, hpath, hcp, hnode, hdata, hnil, -⟩ | hnone
  · exact h.record.keep hkept fun i hi => h.lasting_step hcf hT hmove hi
  · -- the snapshot of the checkpoint that has just ended is now the record
    obtain ⟨hwf, hcount, hbits⟩ := h.snapshots a id _ snap st hcp rfl hst hpath
    intro ino hino
    obtain rfl : tmp = ino := by
      rw [hnode] at hino
      simpa using hino
    refine ⟨hnil, snap, ?_, hwf, hcount, fun i hi => h.lasting_step hcf hT hmove (hbits i hi)⟩
    rw [hdata, (h.own id st hst hpath).1]
  · intro ino hino
    rw [Disk.contents_of_node hino] at hnone
    cases hnone

/-- What a checkpoint has secured of a chunk, it has secured after a step in which it does not
    move. -/
theorem secures_step (h : s.Keeps p.blake3 key l hs dest) (hmove : SessionMove p s s' e)
    {id : UInt64} {st : FileState} (hst : s.env.files.lookup id = some st)
    (hpath : st.sink.path = dest) {cp : CheckpointPc} {i : Nat}
    (hi : cp.Secures p.blake3 l hs dest s.env.disk i) :
    cp.Secures p.blake3 l hs dest s'.env.disk i := by
  cases cp with
  | snapshot => trivial
  | syncData snap =>
      obtain ⟨ino, hnode, hheld⟩ := hi
      obtain rfl : st.sink.ino = ino := by
        have hown := h.tidy.wired.named id st hst
        rw [hpath, hnode] at hown
        simpa using hown.symm
      refine ⟨st.sink.ino, ?_, ?_⟩
      · rw [hmove.env_eq, Env.apply_disk, Effect.node_onDisk (h.node_step hmove hst hpath)]
        exact hnode
      · rw [hmove.env_eq, Env.apply_disk, (e.onInode (h.tidy.wired.lt hst)).data]
        exact held_applyAll hcf hT (h.lawful hmove hst hpath) hheld
  | _ => exact h.lasting_step hcf hT hmove hi

/-- What a checkpoint has secured when it takes a step itself: the snapshot it reads is true of the
    file, and the flush makes what it holds last. -/
theorem secures_goesOn (h : s.Keeps p.blake3 key l hs dest) (hmove : SessionMove p s s' e)
    {a : Option Nat} {id : UInt64} {st : FileState} (hst : s.env.files.lookup id = some st)
    (hpath : st.sink.path = dest) {pc pc' : CheckpointPc} {snap : ChunkBitmap}
    (hcmove : CheckpointMove p.blake3 s.env.disk st pc (.goOn pc') e)
    (hpc : s.checkpointOf a = some (id, pc)) (hsnap : pc'.snapshot? = some snap) :
    snap.Wf ∧ snap.count = l.count ∧
      ∀ i, snap.has i = true → pc'.Secures p.blake3 l hs dest s'.env.disk i := by
  have hdisk : s'.env.disk = e.onDisk s.env.disk := by rw [hmove.env_eq, Env.apply_disk]
  obtain ⟨-, hlayout, hhashes⟩ := h.own id st hst hpath
  have hnode : s.env.disk.node dest = some (.file st.sink.ino) :=
    hpath ▸ h.tidy.wired.named id st hst
  have hlasting : ∀ b, pc.snapshot? = some b →
      (∀ i, pc.Secures p.blake3 l hs dest s.env.disk i →
        pc'.Secures p.blake3 l hs dest s'.env.disk i) →
      b.Wf ∧ b.count = l.count ∧
        ∀ i, b.has i = true → pc'.Secures p.blake3 l hs dest s'.env.disk i := by
    intro b hb hsecures
    obtain ⟨hwf, hcount, hbits⟩ := h.snapshots a id pc b st hpc hb hst hpath
    exact ⟨hwf, hcount, fun i hi => hsecures i (hbits i hi)⟩
  cases hcmove with
  | snapshots hne =>
      cases hsnap
      have htruth := h.truth id st hst hpath
      refine ⟨htruth.wf, hlayout ▸ htruth.count_eq, fun i hi => ⟨st.sink.ino, ?_, ?_⟩⟩
      · rw [hdisk]
        exact hnode
      · rw [hdisk, ← hlayout, ← hhashes]
        exact htruth.bits i hi
  | syncs snap' =>
      cases hsnap
      refine hlasting snap rfl fun i hi => ⟨st.sink.ino, ?_, ?_, ?_⟩
      · rw [hdisk]
        exact hnode
      · obtain ⟨ino, hnode', hheld⟩ := hi
        obtain rfl : st.sink.ino = ino := by
          rw [hnode] at hnode'
          simpa using hnode'
        simp only [hdisk, Effect.onDisk, Disk.durable_sync, if_true]
        exact hheld
      · simp only [hdisk, Effect.onDisk, Disk.pending_sync, if_true]
        exact fun op hop => absurd hop List.not_mem_nil
  | creates snap' hc =>
      cases hsnap
      exact hlasting snap rfl fun i hi => h.lasting_step hcf hT hmove hi
  | writes snap' tmp hn hfit =>
      cases hsnap
      exact hlasting snap rfl fun i hi => h.lasting_step hcf hT hmove hi
  | written snap' tmp hd =>
      cases hsnap
      exact hlasting snap rfl fun i hi => h.lasting_step hcf hT hmove hi
  | syncsTmp snap' tmp =>
      cases hsnap
      exact hlasting snap rfl fun i hi => h.lasting_step hcf hT hmove hi

/-- **What checkpoints of the file have secured after a step.** -/
theorem snapshots_step (h : s.Keeps p.blake3 key l hs dest) (hmove : SessionMove p s s' e)
    {b : Option Nat} {id : UInt64} {cp : CheckpointPc} {snap : ChunkBitmap} {st : FileState}
    (hcp : s'.checkpointOf b = some (id, cp)) (hsnap : cp.snapshot? = some snap)
    (hst : s.env.files.lookup id = some st) (hpath : st.sink.path = dest) :
    snap.Wf ∧ snap.count = l.count ∧
      ∀ i, snap.has i = true → cp.Secures p.blake3 l hs dest s'.env.disk i := by
  have hkeep : s.checkpointOf b = some (id, cp) → snap.Wf ∧ snap.count = l.count ∧
      ∀ i, snap.has i = true → cp.Secures p.blake3 l hs dest s'.env.disk i := by
    intro hold
    obtain ⟨hwf, hcount, hbits⟩ := h.snapshots b id cp snap st hold hsnap hst hpath
    exact ⟨hwf, hcount, fun i hi => h.secures_step hcf hT hmove hst hpath (hbits i hi)⟩
  cases hmove.turn with
  | elsewhere hplain hsame => exact hkeep (hsame b ▸ hcp)
  | begins a id1 hplain hpc' hothers =>
      by_cases hab : b = a
      · subst hab
        rw [hpc'] at hcp
        cases hcp
        cases hsnap
      · exact hkeep (hothers b hab ▸ hcp)
  | finishes a id1 pc r st hst hcmove hpc hpc' hothers =>
      by_cases hab : b = a
      · subst hab
        rw [hpc'] at hcp
        cases hcp
      · exact hkeep (hothers b hab ▸ hcp)
  | sinkWrite w c st done n hmem hpc hcur hst hfits heff hsame => exact hkeep (hsame b ▸ hcp)
  | sinkSync id1 st hst hmain heff hsame => exact hkeep (hsame b ▸ hcp)
  | removes id1 st hst path hpath hmain heff hsame => exact hkeep (hsame b ▸ hcp)
  | goesOn a id1 pc pc' st' hst' hcmove hpc hpc' hothers =>
      by_cases hab : b = a
      swap
      · exact hkeep (hothers b hab ▸ hcp)
      subst hab
      rw [hpc'] at hcp
      cases hcp
      obtain rfl := Option.some.inj (hst.symm.trans hst')
      exact h.secures_goesOn hcf hT hmove hst hpath hcmove hpc hsnap

/-- **Every step of a session keeps the file.** -/
theorem step (hname : Named dest) (h : s.Keeps p.blake3 key l hs dest)
    (hmove : SessionMove p s s' e) : s'.Keeps p.blake3 key l hs dest := by
  refine ⟨h.tidy.step hmove, ?_, ?_, ?_, h.record_step hcf hT hname hmove, ?_⟩
  · intro id st' hst'
    obtain ⟨st, hst, -, hsame⟩ := hmove.lookup_back hst'
    rw [hsame.sink]
    exact h.off id st hst
  · intro id st' hst' hpath
    obtain ⟨st, hst, -, hsame⟩ := hmove.lookup_back hst'
    rw [hsame.sink] at hpath
    rw [hsame.key, hsame.layout, hsame.chunkHashes]
    exact h.own id st hst hpath
  · intro id st' hst' hpath
    obtain ⟨st, hst, rfl, hsame⟩ := hmove.lookup_back hst'
    rw [hsame.sink] at hpath
    obtain ⟨-, hlayout, hhashes⟩ := h.own id st hst hpath
    refine (h.truth id st hst hpath).step hcf hmove h.tidy.fits (hhashes ▸ hT) hst
      (h.tidy.wired.lt hst) ?_
    rw [hlayout, hhashes]
    exact h.lawful hmove hst hpath
  · intro b id cp snap st' hcp hsnap hst' hpath
    obtain ⟨st, hst, -, hsame⟩ := hmove.lookup_back hst'
    rw [hsame.sink] at hpath
    exact h.snapshots_step hcf hT hmove hcp hsnap hst hpath

end Session.Keeps

/-! ## Going over an offer -/

/-- What opening an entry does to the map: a state of it is the new entry's, or an older one's, whose
    destination is another. -/
theorem Accepted.opens {blake3 : Blake3} {config : Config} {outputDir : FilePath} {chunkSize : UInt32}
    {pre : List (FileEntry × EntryIo)} {st st' : OfferState} {x : FileEntry × EntryIo} {c : Checked}
    (h : Accepted blake3 outputDir chunkSize pre st)
    (hcheck : checkEntry blake3 config outputDir chunkSize st.seenPaths x.1 = .ok c)
    (hopen : openEntry blake3 config chunkSize st x.1 c x.2 = .ok st') :
    ∃ sink bitmap, sink.Created st.disk c.dest x.1.sizeBytes chunkSize st'.disk ∧
      initialBitmap blake3 config.resume st'.disk (st.disk.pathExists c.dest) sink c x.2
        = .ok bitmap ∧
      ∀ id fs, st'.files.lookup id = some fs →
        (fs = c.fileState sink bitmap ∧ fs.sink.path = c.dest) ∨
          (st.files.lookup id = some fs ∧ fs.sink.path ≠ c.dest) := by
  have hafter := h.step hcheck hopen
  obtain ⟨sink, bitmap, hsink, hbitmap, hfiles, -⟩ := openEntry_ok hopen
  refine ⟨sink, bitmap, hsink, hbitmap, fun id fs hfs => ?_⟩
  have hself : st'.files.lookup x.1.fileId = some (c.fileState sink bitmap) := by
    rw [hfiles]
    exact AList.lookup_insert _
  by_cases hid : id = x.1.fileId
  · subst hid
    obtain rfl := Option.some.inj (hself.symm.trans hfs)
    exact Or.inl ⟨rfl, hsink.path_eq⟩
  · refine Or.inr ⟨?_, fun hpath => hid (hafter.eq_of_path_eq hfs hself ?_)⟩
    · rw [hfiles, AList.lookup_insert_ne hid] at hfs
      exact hfs
    · rw [hpath]
      exact hsink.path_eq.symm

/-- What the loop has made of the entries so far: the record of `dest` is true for good, and the
    bitmap of `dest`, if it is among them, is true of the file. -/
structure OfferState.Keeps (blake3 : Blake3) (key : StateKey) (l : ChunkLayout) (hs : List Hash)
    (dest : FilePath) (st : OfferState) : Prop where
  record : RecordLasts blake3 key l hs dest st.disk
  own : ∀ id fs, st.files.lookup id = some fs → fs.sink.path = dest →
    fs.key = key ∧ fs.layout = l ∧ fs.chunkHashes = hs
  bitmap : ∀ id fs, st.files.lookup id = some fs → fs.sink.path = dest →
    fs.bitmap.Wf ∧ fs.bitmap.count = l.count ∧
      Truthful blake3 l hs (st.disk.data fs.sink.ino) fs.bitmap

section Offer

variable {blake3 : Blake3} {T : Set Hash} (hcf : CollisionFreeOn blake3 T) {key : StateKey}
  {l : ChunkLayout} {hs : List Hash} (hkey : key.Commits blake3 l hs) (hroot : key.rootHash ∈ T)
  (hT : ∀ h ∈ hs, h ∈ T) {dest : FilePath} {o : Offering} (ho : o.Steady blake3 dest key)
  {d : FileSystem}
include hkey ho

/-- **Creating and sizing a destination takes no lasting chunk away**, and leaves the record. -/
theorem Offering.Steady.create {x : FileEntry × EntryIo} (hx : x ∈ o.entries) {c : Checked}
    (hfor : c.For blake3 o.config o.outputDir o.chunkSize x.1) :
    (∀ i, Lasting blake3 l hs dest d i →
      Lasting blake3 l hs dest
        (SinkFile.create d c.dest x.1.sizeBytes o.chunkSize x.2.sink).1 i) ∧
    (RecordLasts blake3 key l hs dest d →
      RecordLasts blake3 key l hs dest
        (SinkFile.create d c.dest x.1.sizeBytes o.chunkSize x.2.sink).1) := by
  have hlasting : ∀ i, Lasting blake3 l hs dest d i → Lasting blake3 l hs dest
      (SinkFile.create d c.dest x.1.sizeBytes o.chunkSize x.2.sink).1 i := by
    intro i hi
    by_cases hdest : c.dest = dest
    · have hown := ho.own x hx c hfor hdest
      subst hdest
      refine hi.create ?_ _ _
      rw [(ChunkLayout.new_ok hkey.layout_ok).1, ← hown, hfor.key_eq]
    · exact hi.create_ne _ _ _ (Ne.symm hdest)
  refine ⟨hlasting, fun hrec => hrec.keep (SinkFile.create_untouched _ _ _ _ ?_) hlasting⟩
  exact (ho.names x hx c.dest hfor.dest_entry).1.symm

/-- However the loop goes over an entry, it takes no lasting chunk away, and leaves the record. -/
theorem Offering.Steady.left {x : FileEntry × EntryIo} (hx : x ∈ o.entries) (st : OfferState) :
    (∀ i, Lasting blake3 l hs dest st.disk i → Lasting blake3 l hs dest
      (leftBy (offerEntry blake3 o.config o.outputDir o.chunkSize st x)) i) ∧
    (RecordLasts blake3 key l hs dest st.disk → RecordLasts blake3 key l hs dest
      (leftBy (offerEntry blake3 o.config o.outputDir o.chunkSize st x))) := by
  rcases leftBy_offerEntry blake3 o.config o.outputDir o.chunkSize st x with heq | ⟨c, hc, heq⟩
  · rw [heq]
    exact ⟨fun i hi => hi, fun hrec => hrec⟩
  · rw [heq]
    exact ho.create hkey hx (checkEntry_ok hc).1

include hcf hroot hT

theorem OfferState.Keeps.step {x : FileEntry × EntryIo} (hx : x ∈ o.entries) {st st' : OfferState}
    {pre : List (FileEntry × EntryIo)} (h : st.Keeps blake3 key l hs dest)
    (hacc : Accepted blake3 o.outputDir o.chunkSize pre st)
    (hentry : offerEntry blake3 o.config o.outputDir o.chunkSize st x = .ok st') :
    st'.Keeps blake3 key l hs dest := by
  have hrec : RecordLasts blake3 key l hs dest st'.disk := by
    have hleft := (ho.left hkey hx st).2 h.record
    rwa [hentry] at hleft
  unfold offerEntry at hentry
  split at hentry
  · cases hentry
  · next c hcheck =>
      obtain ⟨hfor, -⟩ := checkEntry_ok hcheck
      obtain ⟨sink, bitmap, hsink, hbitmap, hlookup⟩ := hacc.opens hcheck hentry
      -- the state of the new entry, if it is the file's
      have hnew : c.dest = dest → (c.key = key ∧ c.layout = l ∧ c.chunkHashes = hs) ∧ bitmap.Wf ∧
          bitmap.count = l.count ∧ Truthful blake3 l hs (st'.disk.data sink.ino) bitmap := by
        intro hdest
        have hown := ho.own x hx c hfor hdest
        subst hdest
        subst hown
        obtain ⟨hlayout, hhashes⟩ := hkey.unique hcf hroot hfor.commits
        refine ⟨⟨rfl, hlayout, hhashes⟩, ?_⟩
        rw [← hlayout, ← hhashes]
        rcases initialBitmap_cases hbitmap with ⟨-, -, hload⟩ | ⟨-, rfl | hrebuilt⟩
        · -- the record is believed, and its bits are for lasting chunks
          obtain ⟨raw, hraw⟩ : ∃ raw, st'.disk.contents (statePath c.dest) = some raw := by
            cases hnone : st'.disk.contents (statePath c.dest) with
            | some raw => exact ⟨raw, rfl⟩
            | none =>
                rw [Resume.load, hnone] at hload
                cases hload
          obtain ⟨ino, hino, rfl⟩ := Disk.contents_eq_some hraw
          obtain ⟨-, b, hdata, hwf, hcount, hbits⟩ := hrec ino hino
          rw [hdata] at hraw
          obtain ⟨-, rfl, -⟩ := (Resume.load_of_record hwf (hcount ▸ l.count_lt) hraw).1 hload
          refine ⟨hwf, hcount.trans (congrArg ChunkLayout.count hlayout.symm), fun i hi => ?_⟩
          rw [hlayout, hhashes]
          exact (hbits i hi).data hcf hT hsink.node
        · exact ⟨ChunkBitmap.wf_new _, rfl, Resume.truthful_new _ _ _ _⟩
        · have hsinkl : sink.layout = c.layout :=
            Except.ok.inj (hsink.layout_ok.symm.trans hfor.layout_ok)
          have hr := Resume.rebuildByVerification_ok hrebuilt
          exact ⟨hr.wf, hsinkl ▸ hr.count_eq, hsinkl ▸ hr.truthful⟩
      refine ⟨hrec, fun id fs hfs hpath => ?_, fun id fs hfs hpath => ?_⟩
      · rcases hlookup id fs hfs with ⟨rfl, hdest⟩ | ⟨hold, -⟩
        · exact (hnew (hdest.symm.trans hpath)).1
        · exact h.own id fs hold hpath
      · rcases hlookup id fs hfs with ⟨rfl, hdest⟩ | ⟨hold, hne⟩
        · exact (hnew (hdest.symm.trans hpath)).2
        · obtain ⟨hwf, hcount, hbits⟩ := h.bitmap id fs hold hpath
          refine ⟨hwf, hcount, ?_⟩
          rw [(hsink.data_of_node hne (hacc.named id fs hold)).1]
          exact hbits

/-- **What the loop has made of any prefix it has accepted.** -/
theorem Offering.Steady.keeps (hrec : RecordLasts blake3 key l hs dest d)
    {pre : List (FileEntry × EntryIo)} {st : OfferState}
    (hpre : offerLoop blake3 o.config o.outputDir o.chunkSize (.init d) pre = .ok st)
    (hsub : ∀ x ∈ pre, x ∈ o.entries) : st.Keeps blake3 key l hs dest ∧
      ∀ i, Lasting blake3 l hs dest d i → Lasting blake3 l hs dest st.disk i := by
  induction pre using List.reverseRecOn generalizing st with
  | nil =>
      obtain rfl := Except.ok.inj hpre
      exact ⟨⟨hrec, nofun, nofun⟩, fun i hi => hi⟩
  | append_singleton pre x ih =>
      rw [offerLoop_append] at hpre
      cases hst : offerLoop blake3 o.config o.outputDir o.chunkSize (.init d) pre with
      | error r =>
          rw [hst] at hpre
          cases hpre
      | ok s =>
          rw [hst] at hpre
          have hentry : offerEntry blake3 o.config o.outputDir o.chunkSize s x = .ok st := by
            simpa [offerLoop, Except.bind] using hpre
          have hx := hsub x (List.mem_append_right _ (List.mem_singleton.2 rfl))
          obtain ⟨hkeeps, hlasting⟩ := ih hst fun y hy => hsub y (List.mem_append_left _ hy)
          refine ⟨hkeeps.step hcf hkey hroot hT ho hx (accepted_offerLoop hst) hentry,
            fun i hi => ?_⟩
          have hleft := (ho.left hkey hx s).1 i (hlasting i hi)
          rwa [hentry] at hleft

/-- **A session over an accepted offer starts with the file kept.** -/
theorem Offering.Steady.session (hrec : RecordLasts blake3 key l hs dest d) {st : OfferState}
    (hst : o.answer blake3 d = .ok st) :
    (Session.start st o.streamCount).Keeps blake3 key l hs dest := by
  obtain ⟨hkeeps, -⟩ := ho.keeps hcf hkey hroot hT hrec hst fun x hx => hx
  have hacc := accepted_offerLoop hst
  refine ⟨hacc.tidy ho.apart _, fun id fs hfs => ?_, hkeeps.own, fun id fs hfs hpath => ?_,
    hkeeps.record, fun b id cp snap fs hcp => ?_⟩
  · obtain ⟨x, hx, -, hserves⟩ := hacc.made id fs hfs
    exact ho.names x hx _ hserves.dest_eq
  · obtain ⟨hwf, hcount, hbits⟩ := hkeeps.bitmap id fs hfs hpath
    obtain ⟨-, hlayout, hhashes⟩ := hkeeps.own id fs hfs hpath
    refine ⟨hwf, hlayout ▸ hcount, ?_, fun w hw => absurd hw List.not_mem_nil⟩
    rw [hlayout, hhashes]
    exact hbits
  · rw [Session.checkpointOf_start] at hcp
    cases hcp

/-- **However the loop goes over an offer**, the record and what lasts are kept. -/
theorem Offering.Steady.answer (hrec : RecordLasts blake3 key l hs dest d) :
    RecordLasts blake3 key l hs dest (leftBy (o.answer blake3 d)) ∧
      ∀ i, Lasting blake3 l hs dest d i →
        Lasting blake3 l hs dest (leftBy (o.answer blake3 d)) i := by
  cases hanswer : o.answer blake3 d with
  | ok st =>
      obtain ⟨hkeeps, hlasting⟩ := ho.keeps hcf hkey hroot hT hrec hanswer fun x hx => hx
      exact ⟨hkeeps.record, hlasting⟩
  | error r =>
      obtain ⟨pre, x, post, st, hentries, hpre, hx⟩ := offerLoop_error hanswer
      have hmem : ∀ y ∈ pre ++ [x], y ∈ o.entries := by
        intro y hy
        rw [hentries]
        rcases List.mem_append.1 hy with hy | hy
        · exact List.mem_append_left _ hy
        · obtain rfl := List.mem_singleton.1 hy
          exact List.mem_append_right _ List.mem_cons_self
      obtain ⟨hkeeps, hlasting⟩ := ho.keeps hcf hkey hroot hT hrec hpre
        fun y hy => hmem y (List.mem_append_left _ hy)
      obtain ⟨hlast, hrecord⟩ := ho.left hkey (hmem x (List.mem_append_right _
        (List.mem_singleton.2 rfl))) st
      rw [hx] at hlast hrecord
      exact ⟨hrecord hkeeps.record, fun i hi => hlast i (hlasting i hi)⟩

end Offer

/-! ## One session after another -/

/-- What a device keeps of the file at `dest`. -/
def Device.Keeps (blake3 : Blake3) (key : StateKey) (l : ChunkLayout) (hs : List Hash)
    (dest : FilePath) : Device → Prop
  | .idle d => RecordLasts blake3 key l hs dest d
  | .receiving p s => p.blake3 = blake3 ∧ s.Keeps blake3 key l hs dest

namespace Device.Keeps

variable {blake3 : Blake3} {T : Set Hash} (hcf : CollisionFreeOn blake3 T) {key : StateKey}
  {l : ChunkLayout} {hs : List Hash} (hkey : key.Commits blake3 l hs) (hroot : key.rootHash ∈ T)
  (hT : ∀ h ∈ hs, h ∈ T) {dest : FilePath} (hname : Named dest) {w w' : Device} {a : DeviceAct}

theorem record (h : w.Keeps blake3 key l hs dest) : RecordLasts blake3 key l hs dest w.disk := by
  cases w with
  | idle d => exact h
  | receiving p s => exact h.2.record

include hcf hkey hroot hT hname

/-- **Every step of a device** keeps the file and what lasts of it. -/
theorem step (h : w.Keeps blake3 key l hs dest) (ha : a.Steady blake3 dest key)
    (hstep : w.step blake3 a = some w') : w'.Keeps blake3 key l hs dest ∧
      ∀ i, Lasting blake3 l hs dest w.disk i → Lasting blake3 l hs dest w'.disk i := by
  cases Device.step_moves hstep with
  | refused hr =>
      have hanswer := ha.answer hcf hkey hroot hT h
      rw [hr] at hanswer
      exact hanswer
  | accepted hst =>
      have hanswer := ha.answer hcf hkey hroot hT h
      rw [hst] at hanswer
      exact ⟨⟨rfl, ha.session hcf hkey hroot hT h hst⟩, hanswer.2⟩
  | session heff hmove =>
      obtain ⟨rfl, hs⟩ := h
      exact ⟨⟨rfl, hs.step hcf hT hname hmove⟩, fun i hi => hs.lasting_step hcf hT hmove hi⟩
  | stops p s => exact ⟨h.2.record, fun i hi => hi⟩
  | losesPower w mask => exact ⟨h.record.crash hcf hT mask, fun i hi => hi.crash hcf hT mask⟩

/-- **Every run of a device.** -/
theorem runs (h : w.Keeps blake3 key l hs dest) {as : List DeviceAct}
    (has : ∀ a ∈ as, a.Steady blake3 dest key) (hrun : w.runs blake3 as = some w') :
    w'.Keeps blake3 key l hs dest ∧
      ∀ i, Lasting blake3 l hs dest w.disk i → Lasting blake3 l hs dest w'.disk i := by
  induction as generalizing w with
  | nil =>
      obtain rfl := Option.some.inj hrun
      exact ⟨h, fun i hi => hi⟩
  | cons a as ih =>
      obtain ⟨m, hm, hrest⟩ := Run.runs_cons_some hrun
      obtain ⟨hkeeps, hlasting⟩ := h.step hcf hkey hroot hT hname (has a List.mem_cons_self) hm
      obtain ⟨hend, hlasting'⟩ := ih hkeeps (fun b hb => has b (List.mem_cons_of_mem _ hb)) hrest
      exact ⟨hend, fun i hi => hlasting' i (hlasting i hi)⟩

end Device.Keeps

/-- A disk without a record of `dest` has nothing to keep. -/
theorem RecordLasts.of_none {blake3 : Blake3} {key : StateKey} {l : ChunkLayout} {hs : List Hash}
    {dest : FilePath} {d : FileSystem} (h : d.contents (statePath dest) = none) :
    RecordLasts blake3 key l hs dest d := by
  intro ino hino
  rw [Disk.contents_of_node hino] at h
  cases h

end AetherLink
