import AetherLink.Proofs.Commitment
import AetherLink.Proofs.Sidecar

set_option autoImplicit false

/-! # Checkpoints and power loss

One file is received under one key over any number of sessions, each stopped at any point. A bit that
a record on disk sets is for a chunk whose bytes the device holds already (`Lasting`): they were
flushed after the bitmap was read and before the record was put in place, and from then on only
pieces of payloads and resizings to at least the file's size reach the file, any subset of which a
power loss may drop. -/

namespace AetherLink

open Bytes Storage

/-! ## Chunks that last -/

/-- The device holds chunk `i` of the file at `dest`, and nothing that waits for an fsync can take it
    away. -/
def Lasting (blake3 : Blake3) (l : ChunkLayout) (hs : List Hash) (dest : FilePath) (d : FileSystem)
    (i : Nat) : Prop :=
  ∃ ino, d.node dest = some (.file ino) ∧ ChunkHeld blake3 l hs (d.durable ino) i ∧
    ∀ op ∈ d.pending ino, Lawful blake3 l hs op

section Lasting

variable {blake3 : Blake3} {T : Set Hash} (hcf : CollisionFreeOn blake3 T) {l : ChunkLayout}
  {hs : List Hash} (hT : ∀ h ∈ hs, h ∈ T) {dest : FilePath} {d d' : FileSystem} {i ino : Nat}
include hcf hT

/-- A lasting chunk can be read back. -/
theorem Lasting.data (h : Lasting blake3 l hs dest d i) (hino : d.node dest = some (.file ino)) :
    ChunkHeld blake3 l hs (d.data ino) i := by
  obtain ⟨j, hj, hheld, hpending⟩ := h
  obtain rfl : j = ino := by
    rw [hj] at hino
    simpa using hino
  rw [d.data_eq_durable]
  exact held_applyAll hcf hT hpending hheld

/-- **A lasting chunk survives a power loss**, whatever of the pending writes does. -/
theorem Lasting.crash (h : Lasting blake3 l hs dest d i) (mask : Nat → Nat → Bool) :
    Lasting blake3 l hs dest (d.crash mask) i := by
  obtain ⟨j, hj, hheld, hpending⟩ := h
  refine ⟨j, hj, ?_, fun op hop => absurd hop List.not_mem_nil⟩
  exact held_applyAll hcf hT (fun op hop => hpending op (mem_of_mem_keepMasked hop)) hheld

/-- A lasting chunk survives an effect with lawful operations that does not rebind the file. -/
theorem Lasting.effect (h : Lasting blake3 l hs dest d i) {e : Effect}
    (hino : d.node dest = some (.file ino)) (hrec : dest ∉ e.recordPaths)
    (hops : ∀ op ∈ e.ops d ino, Lawful blake3 l hs op) :
    Lasting blake3 l hs dest (e.onDisk d) i := by
  have hdata := h.data hcf hT hino
  obtain ⟨j, hj, hheld, hpending⟩ := h
  obtain rfl : j = ino := by
    rw [hj] at hino
    simpa using hino
  have hon := e.onInode (d.node_lt _ _ hj)
  refine ⟨j, (Effect.node_onDisk hrec).trans hj, ?_, ?_⟩
  · rw [hon.durable]
    split
    · exact hdata
    · exact hheld
  · rw [hon.pending]
    split
    · exact fun op hop => absurd hop List.not_mem_nil
    · intro op hop
      rcases List.mem_append.1 hop with hop | hop
      · exact hpending op hop
      · exact hops op hop

omit hcf hT in
/-- A lasting chunk survives the opening of its file. -/
theorem Lasting.create (h : Lasting blake3 l hs dest d i) {size : UInt64}
    (hsize : l.fileSize = size.toNat) (chunkSize : UInt32) (io : SinkIo) :
    Lasting blake3 l hs dest (SinkFile.create d dest size chunkSize io).1 i := by
  obtain ⟨j, hj, hheld, hpending⟩ := h
  obtain ⟨hnode, hdurable, ops, hops, hpend, -, -⟩ :=
      SinkFile.create_resizes d dest size chunkSize io hj
  refine ⟨j, hnode, hdurable ▸ hheld, fun op hop => ?_⟩
  rw [hpend] at hop
  rcases List.mem_append.1 hop with hop | hop
  · exact hpending op hop
  · obtain ⟨n, hn, rfl⟩ := hops op hop
    exact .resize (hsize ▸ hn)

end Lasting

/-- The record beside `dest`, if there is one, is on the device, and every bit it sets is for a
    lasting chunk. -/
def RecordLasts (blake3 : Blake3) (key : StateKey) (l : ChunkLayout) (hs : List Hash)
    (dest : FilePath) (d : FileSystem) : Prop :=
  ∀ ino, d.node (statePath dest) = some (.file ino) → d.pending ino = [] ∧
    ∃ b, d.data ino = Resume.record blake3 key b ∧ b.Wf ∧ b.count = l.count ∧
      ∀ i, b.has i = true → Lasting blake3 l hs dest d i

/-- A record that is left alone lasts as long as its chunks do. -/
theorem RecordLasts.keep {blake3 : Blake3} {key : StateKey} {l : ChunkLayout} {hs : List Hash}
    {dest : FilePath} {d d' : FileSystem} (h : RecordLasts blake3 key l hs dest d)
    (hkept : Untouched d d' (statePath dest))
    (hlasting : ∀ i, Lasting blake3 l hs dest d i → Lasting blake3 l hs dest d' i) :
    RecordLasts blake3 key l hs dest d' := by
  intro ino hino
  have hold := (hkept.node ino).1 hino
  obtain ⟨hnil, b, hdata, hwf, hcount, hbits⟩ := h ino hold
  exact ⟨hkept.pending ino hold hnil, b, (hkept.data ino hold).trans hdata, hwf, hcount,
    fun i hi => hlasting i (hbits i hi)⟩

/-! ## One session -/

/-- What a checkpoint knows of a chunk of its snapshot: up to the flush that the file holds it, and
    then that it lasts. -/
def CheckpointPc.Secures (blake3 : Blake3) (l : ChunkLayout) (hs : List Hash) (dest : FilePath)
    (d : FileSystem) (i : Nat) : CheckpointPc → Prop
  | .snapshot => True
  | .syncData _ => ∃ ino, d.node dest = some (.file ino) ∧ ChunkHeld blake3 l hs (d.data ino) i
  | _ => Lasting blake3 l hs dest d i

/-- A session that receives the file at `dest` under `key`, and only this file. -/
structure Session.Securing (blake3 : Blake3) (key : StateKey) (l : ChunkLayout) (hs : List Hash)
    (dest : FilePath) (s : Session) : Prop where
  tidy : s.Tidy blake3
  file : ∃ id st, s.env.files.lookup id = some st
  only : ∀ id st, s.env.files.lookup id = some st →
    st.sink.path = dest ∧ st.key = key ∧ st.layout = l ∧ st.chunkHashes = hs
  truth : ∀ id st, s.env.files.lookup id = some st → Truth blake3 s id st
  record : RecordLasts blake3 key l hs dest s.env.disk
  snapshots : ∀ a id cp b, s.checkpointOf a = some (id, cp) → cp.snapshot? = some b →
    b.Wf ∧ b.count = l.count ∧
      ∀ i, b.has i = true → cp.Secures blake3 l hs dest s.env.disk i

section Securing

variable {p : Params} {T : Set Hash} (hcf : CollisionFreeOn p.blake3 T) {key : StateKey}
  {l : ChunkLayout} {hs : List Hash} (hT : ∀ h ∈ hs, h ∈ T) {dest : FilePath} {s s' : Session}
  {e : Effect}

namespace Session.Securing

/-- Only pieces of payloads reach the file. -/
theorem lawful (h : s.Securing p.blake3 key l hs dest) (hmove : SessionMove p s s' e) {id : UInt64}
    {st : FileState} (hst : s.env.files.lookup id = some st) :
    ∀ op ∈ e.ops s.env.disk st.sink.ino, Lawful p.blake3 l hs op := by
  obtain ⟨-, -, hl, hhs⟩ := h.only id st hst
  have := h.tidy.lawful hmove hst
  rwa [hl, hhs] at this

include hcf hT

theorem lasting_step (h : s.Securing p.blake3 key l hs dest) (hmove : SessionMove p s s' e) {i : Nat}
    (hlasting : Lasting p.blake3 l hs dest s.env.disk i) :
    Lasting p.blake3 l hs dest s'.env.disk i := by
  obtain ⟨id, st, hst⟩ := h.file
  obtain ⟨rfl, -, -, -⟩ := h.only id st hst
  rw [hmove.env_eq, Env.apply_disk]
  refine hlasting.effect hcf hT (h.tidy.wired.named id st hst) (fun hmem => ?_) (h.lawful hmove hst)
  exact h.tidy.apart.offDestinations hmove _ hmem id st hst rfl

/-- **The record on disk after a step.** -/
theorem record_step (h : s.Securing p.blake3 key l hs dest) (hmove : SessionMove p s s' e) :
    RecordLasts p.blake3 key l hs dest s'.env.disk := by
  obtain ⟨id, st, hst⟩ := h.file
  obtain ⟨hpath, -, -, -⟩ := h.only id st hst
  have hname : Named dest := hpath ▸ h.tidy.sound.named id st hst
  have hoff : ∀ id' st', s.env.files.lookup id' = some st' → statePath dest ≠ st'.sink.path := by
    intro id' st' hst' heq
    exact (h.tidy.apart id id' st st' hst hst').1 (heq.symm.trans (congrArg statePath hpath.symm))
  rcases h.tidy.record_cases hmove hname hoff with
    hkept | ⟨a, id', st', snap, tmp, hst', -, hcp, hnode, hdata, hnil, -⟩ | hnone
  · exact h.record.keep hkept fun i hi => h.lasting_step hcf hT hmove hi
  · -- the snapshot of the checkpoint that has just ended is now the record
    obtain ⟨hwf, hcount, hbits⟩ := h.snapshots a id' _ snap hcp rfl
    intro ino hino
    obtain rfl : tmp = ino := by
      rw [hnode] at hino
      simpa using hino
    refine ⟨hnil, snap, ?_, hwf, hcount, fun i hi => h.lasting_step hcf hT hmove (hbits i hi)⟩
    rw [hdata, (h.only id' st' hst').2.1]
  · intro ino hino
    rw [Disk.contents_of_node hino] at hnone
    cases hnone

/-- **What checkpoints have secured after a step.** -/
theorem snapshots_step (h : s.Securing p.blake3 key l hs dest) (hmove : SessionMove p s s' e)
    (b : Option Nat) (id : UInt64) (cp : CheckpointPc) (snap : ChunkBitmap)
    (hcp : s'.checkpointOf b = some (id, cp)) (hsnap : cp.snapshot? = some snap) :
    snap.Wf ∧ snap.count = l.count ∧
      ∀ i, snap.has i = true → cp.Secures p.blake3 l hs dest s'.env.disk i := by
  have hdisk : s'.env.disk = e.onDisk s.env.disk := by rw [hmove.env_eq, Env.apply_disk]
  have hlasting : ∀ i, Lasting p.blake3 l hs dest s.env.disk i →
      Lasting p.blake3 l hs dest s'.env.disk i := fun i hi => h.lasting_step hcf hT hmove hi
  obtain ⟨id0, st0, hst0⟩ := h.file
  obtain ⟨hpath0, -, -, -⟩ := h.only id0 st0 hst0
  -- what a checkpoint that does not move has secured, it keeps
  have hkeep : s.checkpointOf b = some (id, cp) → snap.Wf ∧ snap.count = l.count ∧
      ∀ i, snap.has i = true → cp.Secures p.blake3 l hs dest s'.env.disk i := by
    intro hold
    obtain ⟨hwf, hcount, hbits⟩ := h.snapshots b id cp snap hold hsnap
    refine ⟨hwf, hcount, fun i hi => ?_⟩
    have hi := hbits i hi
    cases cp with
    | snapshot => trivial
    | syncData snap =>
        obtain ⟨ino, hnode, hheld⟩ := hi
        obtain rfl : st0.sink.ino = ino := by
          have := h.tidy.wired.named id0 st0 hst0
          rw [hpath0, hnode] at this
          simpa using this.symm
        refine ⟨st0.sink.ino, ?_, ?_⟩
        · rw [hdisk, Effect.node_onDisk]
          · exact hnode
          · exact fun hmem => h.tidy.apart.offDestinations hmove _ hmem id0 st0 hst0 hpath0.symm
        · rw [hdisk, (e.onInode (h.tidy.wired.lt hst0)).data]
          exact held_applyAll hcf hT (h.lawful hmove hst0) hheld
    | createTmp snap => exact hlasting i hi
    | writeTmp snap tmp done => exact hlasting i hi
    | syncTmp snap tmp => exact hlasting i hi
    | renameTmp snap tmp => exact hlasting i hi
  cases hmove.turn with
  | elsewhere hplain hsame => exact hkeep (hsame b ▸ hcp)
  | begins a id1 hplain hpc' hothers =>
      by_cases hab : b = a
      · subst hab
        rw [hpc'] at hcp
        cases hcp
        cases hsnap
      · exact hkeep (hothers b hab ▸ hcp)
  | finishes a id1 pc r st hst hcmove hpc hpc' hothers =>
      by_cases hab : b = a
      · subst hab
        rw [hpc'] at hcp
        cases hcp
      · exact hkeep (hothers b hab ▸ hcp)
  | sinkWrite w c st done n hmem hpc hcur hst hfits heff hsame => exact hkeep (hsame b ▸ hcp)
  | sinkSync id1 st hst hmain heff hsame => exact hkeep (hsame b ▸ hcp)
  | removes id1 st hst path hpath hmain heff hsame => exact hkeep (hsame b ▸ hcp)
  | goesOn a id1 pc pc' st hst hcmove hpc hpc' hothers =>
      by_cases hab : b = a
      swap
      · exact hkeep (hothers b hab ▸ hcp)
      subst hab
      rw [hpc'] at hcp
      cases hcp
      obtain ⟨hpath, -, hlayout, hhashes⟩ := h.only id st hst
      have htruth := h.truth id st hst
      have hnode : s.env.disk.node dest = some (.file st.sink.ino) :=
        hpath ▸ h.tidy.wired.named id st hst
      rw [hdisk]
      rw [hdisk] at hlasting
      cases hcmove with
      | snapshots hne =>
          -- the bitmap is true of the file as it is
          cases hsnap
          refine ⟨htruth.wf, hlayout ▸ htruth.count_eq, fun i hi => ⟨_, hnode, ?_⟩⟩
          rw [← hlayout, ← hhashes]
          exact htruth.bits i hi
      | syncs snap' =>
          -- the flush makes everything in the file last
          cases hsnap
          obtain ⟨hwf, hcount, hbits⟩ := h.snapshots b id _ snap hpc rfl
          refine ⟨hwf, hcount, fun i hi => ⟨_, hnode, ?_, ?_⟩⟩
          · obtain ⟨ino, hnode', hheld⟩ := hbits i hi
            obtain rfl : st.sink.ino = ino := by
              rw [hnode] at hnode'
              simpa using hnode'
            simp only [Effect.onDisk, Disk.durable_sync, if_true]
            exact hheld
          · simp only [Effect.onDisk, Disk.pending_sync, if_true]
            exact fun op hop => absurd hop List.not_mem_nil
      | creates snap' hc =>
          cases hsnap
          obtain ⟨hwf, hcount, hbits⟩ := h.snapshots b id _ snap hpc rfl
          exact ⟨hwf, hcount, fun i hi => hlasting i (hbits i hi)⟩
      | writes snap' tmp hn hfit =>
          cases hsnap
          obtain ⟨hwf, hcount, hbits⟩ := h.snapshots b id _ snap hpc rfl
          exact ⟨hwf, hcount, fun i hi => hlasting i (hbits i hi)⟩
      | written snap' tmp hd =>
          cases hsnap
          obtain ⟨hwf, hcount, hbits⟩ := h.snapshots b id _ snap hpc rfl
          exact ⟨hwf, hcount, fun i hi => hlasting i (hbits i hi)⟩
      | syncsTmp snap' tmp =>
          cases hsnap
          obtain ⟨hwf, hcount, hbits⟩ := h.snapshots b id _ snap hpc rfl
          exact ⟨hwf, hcount, fun i hi => hlasting i (hbits i hi)⟩

/-- **Every step of a session keeps it secure.** -/
theorem step (h : s.Securing p.blake3 key l hs dest) (hmove : SessionMove p s s' e) :
    s'.Securing p.blake3 key l hs dest where
  tidy := h.tidy.step hmove
  file := by
    obtain ⟨id, st, hst⟩ := h.file
    obtain ⟨st', hst', -⟩ := hmove.sameStates id st hst
    exact ⟨id, st', hst'⟩
  only := by
    intro id st' hst'
    obtain ⟨st, hst, -, hsame⟩ := hmove.lookup_back hst'
    rw [hsame.sink, hsame.key, hsame.layout, hsame.chunkHashes]
    exact h.only id st hst
  truth := by
    intro id st' hst'
    obtain ⟨st, hst, rfl, -⟩ := hmove.lookup_back hst'
    obtain ⟨-, -, hlayout, hhashes⟩ := h.only id st hst
    refine (h.truth id st hst).step hcf hmove h.tidy.fits (hhashes ▸ hT) hst (h.tidy.wired.lt hst) ?_
    rw [hlayout, hhashes]
    exact h.lawful hmove hst
  record := h.record_step hcf hT hmove
  snapshots := h.snapshots_step hcf hT hmove

end Session.Securing

end Securing

/-! ## One session after another -/

/-- Every offer is for the one file: whatever its entry resolves to is `dest`, under `key`. -/
def DeviceAct.Reoffers (blake3 : Blake3) (dest : FilePath) (key : StateKey) : DeviceAct → Prop
  | .offer o => ∃ x, o.entries = [x] ∧ ∀ c,
      checkEntry blake3 o.config o.outputDir o.chunkSize [] x.1 = .ok c → c.dest = dest ∧ c.key = key
  | _ => True

/-- What holds of a device that only ever receives the one file. -/
def Device.Secure (blake3 : Blake3) (key : StateKey) (l : ChunkLayout) (hs : List Hash)
    (dest : FilePath) : Device → Prop
  | .idle d => RecordLasts blake3 key l hs dest d
  | .receiving p s => p.blake3 = blake3 ∧ s.Securing blake3 key l hs dest

section Offer

variable {blake3 : Blake3} {T : Set Hash} (hcf : CollisionFreeOn blake3 T) {key : StateKey}
  {l : ChunkLayout} {hs : List Hash} (hkey : key.Commits blake3 l hs) (hroot : key.rootHash ∈ T)
  (hT : ∀ h ∈ hs, h ∈ T) {dest : FilePath} {o : Offering} {d : FileSystem}
  (ho : (DeviceAct.offer o).Reoffers blake3 dest key)
include ho hkey

/-- An offer of the file leaves the record alone and takes no lasting chunk away. -/
theorem Offering.keeps :
    Untouched d (leftBy (o.answer blake3 d)) (statePath dest) ∧
      ∀ i, Lasting blake3 l hs dest d i → Lasting blake3 l hs dest (leftBy (o.answer blake3 d)) i := by
  obtain ⟨x, hx, hresolves⟩ := ho
  have hleft : leftBy (o.answer blake3 d)
      = leftBy (offerEntry blake3 o.config o.outputDir o.chunkSize (.init d) x) := by
    rw [answer, hx, offerLoop, List.foldlM_cons]
    cases offerEntry blake3 o.config o.outputDir o.chunkSize (.init d) x <;> rfl
  rw [hleft]
  rcases leftBy_offerEntry blake3 o.config o.outputDir o.chunkSize (.init d) x with heq | ⟨c, hc, heq⟩
  · rw [heq]
    exact ⟨.refl _ _, fun i hi => hi⟩
  · obtain ⟨rfl, rfl⟩ := hresolves c hc
    obtain ⟨hfor, -⟩ := checkEntry_ok hc
    rw [heq]
    refine ⟨SinkFile.create_untouched _ _ _ _ (statePath_ne_self hfor.named.1), fun i hi => ?_⟩
    refine hi.create ?_ _ _
    rw [(ChunkLayout.new_ok hkey.layout_ok).1, hfor.key_eq]

/-- The record an offer of the file finds lasts. -/
theorem Offering.record (hrec : RecordLasts blake3 key l hs dest d) :
    RecordLasts blake3 key l hs dest (leftBy (o.answer blake3 d)) :=
  hrec.keep (Offering.keeps hkey ho).1 (Offering.keeps hkey ho).2

include hcf hroot hT

/-- **A session over the file starts secure**: its bitmap is empty, or verified, or the record's. -/
theorem Offering.securing (hrec : RecordLasts blake3 key l hs dest d) {st : OfferState}
    (hst : o.answer blake3 d = .ok st) :
    (Session.start st o.streamCount).Securing blake3 key l hs dest := by
  have hrec' : RecordLasts blake3 key l hs dest st.disk := by
    have := Offering.record hkey ho hrec
    rwa [hst] at this
  obtain ⟨x, hx, hresolves⟩ := ho
  rw [answer, hx] at hst
  have hacc := accepted_offerLoop hst
  have hentry : offerEntry blake3 o.config o.outputDir o.chunkSize (.init d) x = .ok st := by
    simpa [offerLoop, Except.bind] using hst
  unfold offerEntry at hentry
  split at hentry
  · cases hentry
  · next c hc =>
      obtain ⟨rfl, rfl⟩ := hresolves c hc
      obtain ⟨hfor, -⟩ := checkEntry_ok hc
      obtain ⟨hlayout, hhashes⟩ := hkey.unique hcf hroot hfor.commits
      obtain ⟨sink, bitmap, hsink, hbitmap, hfiles, -⟩ := openEntry_ok hentry
      have hlookup : ∀ id fs, st.files.lookup id = some fs → fs = c.fileState sink bitmap := by
        intro id fs hfs
        rw [hfiles] at hfs
        by_cases hid : id = x.1.fileId
        · subst hid
          rw [AList.lookup_insert, Option.some.injEq] at hfs
          exact hfs.symm
        · rw [AList.lookup_insert_ne hid] at hfs
          cases hfs
      have htruthful : bitmap.Wf ∧ bitmap.count = c.layout.count ∧
          Truthful blake3 c.layout c.chunkHashes (st.disk.data sink.ino) bitmap := by
        rcases initialBitmap_cases hbitmap with ⟨-, -, hload⟩ | ⟨-, rfl | hrebuilt⟩
        · -- the record on disk is believed, and its bits are for lasting chunks
          obtain ⟨raw, hraw⟩ : ∃ raw, st.disk.contents (statePath c.dest) = some raw := by
            cases hnone : st.disk.contents (statePath c.dest) with
            | some raw => exact ⟨raw, rfl⟩
            | none =>
                rw [Resume.load, hnone] at hload
                cases hload
          obtain ⟨ino, hino, rfl⟩ := Disk.contents_eq_some hraw
          obtain ⟨-, b, hdata, hwf, hcount, hbits⟩ := hrec' ino hino
          rw [hdata] at hraw
          obtain ⟨-, rfl, -⟩ := (Resume.load_of_record hwf (hcount ▸ l.count_lt) hraw).1 hload
          refine ⟨hwf, hcount.trans (congrArg ChunkLayout.count hlayout.symm), fun i hi => ?_⟩
          rw [hlayout, hhashes]
          exact (hbits i hi).data hcf hT hsink.node
        · exact ⟨ChunkBitmap.wf_new _, rfl, Resume.truthful_new _ _ _ _⟩
        · have hsinkl : sink.layout = c.layout :=
            Except.ok.inj (hsink.layout_ok.symm.trans hfor.layout_ok)
          have hr := Resume.rebuildByVerification_ok hrebuilt
          exact ⟨hr.wf, hsinkl ▸ hr.count_eq, hsinkl ▸ hr.truthful⟩
      refine ⟨hacc.tidy (entriesApart_singleton _ x) _,
          ⟨x.1.fileId, c.fileState sink bitmap, ?_⟩, ?_, ?_, hrec', ?_⟩
      · rw [Session.start, hfiles]
        exact AList.lookup_insert _
      · intro id fs hfs
        obtain rfl := hlookup id fs hfs
        exact ⟨hsink.path_eq, rfl, hlayout, hhashes⟩
      · intro id fs hfs
        obtain rfl := hlookup id fs hfs
        exact ⟨htruthful.1, htruthful.2.1, htruthful.2.2, fun w hw => absurd hw List.not_mem_nil⟩
      · intro a id cp b hcp
        rw [Session.checkpointOf_start] at hcp
        cases hcp

end Offer

/-- A record survives a power loss. -/
theorem RecordLasts.crash {blake3 : Blake3} {T : Set Hash} (hcf : CollisionFreeOn blake3 T)
    {key : StateKey} {l : ChunkLayout} {hs : List Hash} (hT : ∀ h ∈ hs, h ∈ T) {dest : FilePath}
    {d : FileSystem} (h : RecordLasts blake3 key l hs dest d) (mask : Nat → Nat → Bool) :
    RecordLasts blake3 key l hs dest (d.crash mask) := by
  intro ino hino
  obtain ⟨hnil, b, hdata, hwf, hcount, hbits⟩ := h ino hino
  refine ⟨rfl, b, ?_, hwf, hcount, fun i hi => (hbits i hi).crash hcf hT mask⟩
  have hsame : (d.crash mask).data ino = d.data ino := by
    rw [Disk.data_eq_durable d, hnil]
    show applyAll (d.durable ino) (keepMasked (mask ino) (d.pending ino)) = _
    rw [hnil]
    rfl
  rw [hsame, hdata]

section Device

variable {blake3 : Blake3} {T : Set Hash} (hcf : CollisionFreeOn blake3 T) {key : StateKey}
  {l : ChunkLayout} {hs : List Hash} (hkey : key.Commits blake3 l hs) (hroot : key.rootHash ∈ T)
  (hT : ∀ h ∈ hs, h ∈ T) {dest : FilePath} {w w' : Device} {a : DeviceAct}
include hcf hkey hT

omit hcf hkey hT in
theorem Device.Secure.record (h : w.Secure blake3 key l hs dest) :
    RecordLasts blake3 key l hs dest w.disk := by
  cases w with
  | idle d => exact h
  | receiving p s => exact h.2.record

/-- What lasts on a device lasts through every step of it. -/
theorem Device.Secure.lasting (h : w.Secure blake3 key l hs dest)
    (ha : a.Reoffers blake3 dest key) (hstep : w.step blake3 a = some w') {i : Nat}
    (hi : Lasting blake3 l hs dest w.disk i) : Lasting blake3 l hs dest w'.disk i := by
  cases Device.step_moves hstep with
  | @refused disk o r hr =>
      have := (Offering.keeps (d := disk) hkey ha).2 i hi
      rwa [hr] at this
  | @accepted disk o st hst =>
      have := (Offering.keeps (d := disk) hkey ha).2 i hi
      rwa [hst] at this
  | session heff hmove =>
      obtain ⟨rfl, hs⟩ := h
      exact hs.lasting_step hcf hT hmove hi
  | stops p s => exact hi
  | losesPower w mask => exact hi.crash hcf hT mask

include hroot

/-- **Every step keeps a device secure.** -/
theorem Device.Secure.step (h : w.Secure blake3 key l hs dest) (ha : a.Reoffers blake3 dest key)
    (hstep : w.step blake3 a = some w') : w'.Secure blake3 key l hs dest := by
  cases Device.step_moves hstep with
  | refused hr =>
      have := Offering.record hkey ha h
      rwa [hr] at this
  | accepted hst => exact ⟨rfl, Offering.securing hcf hkey hroot hT ha h hst⟩
  | session heff hmove =>
      obtain ⟨rfl, hs⟩ := h
      exact ⟨rfl, hs.step hcf hT hmove⟩
  | stops p s => exact h.2.record
  | losesPower w mask => exact h.record.crash hcf hT mask

theorem Device.Secure.runs (h : w.Secure blake3 key l hs dest) {as : List DeviceAct}
    (has : ∀ a ∈ as, a.Reoffers blake3 dest key) (hrun : w.runs blake3 as = some w') :
    w'.Secure blake3 key l hs dest ∧
      ∀ i, Lasting blake3 l hs dest w.disk i → Lasting blake3 l hs dest w'.disk i := by
  induction as generalizing w with
  | nil =>
      obtain rfl := Option.some.inj hrun
      exact ⟨h, fun i hi => hi⟩
  | cons a as ih =>
      obtain ⟨m, hm, hrest⟩ := Run.runs_cons_some hrun
      have ha := has a List.mem_cons_self
      obtain ⟨hend, hlasting⟩ := ih (h.step hcf hkey hroot hT ha hm)
        (fun b hb => has b (List.mem_cons_of_mem _ hb)) hrest
      exact ⟨hend, fun i hi => hlasting i (h.lasting hcf hkey hT ha hm hi)⟩

end Device

theorem RecordLasts.lasting {blake3 : Blake3} {key : StateKey} {l : ChunkLayout} {hs : List Hash}
    {dest : FilePath} {d : FileSystem} {i : Nat} (h : RecordLasts blake3 key l hs dest d)
    (hbit : recordedBit blake3 d dest key i = true) : Lasting blake3 l hs dest d i := by
  obtain ⟨raw, hraw, -⟩ := (Option.any_eq_true _ _).1 hbit
  obtain ⟨ino, hino, rfl⟩ := Disk.contents_eq_some hraw
  obtain ⟨-, b, hdata, hwf, hcount, hbits⟩ := h ino hino
  rw [hdata] at hraw
  exact hbits i ((recordedBit_iff hwf (hcount ▸ l.count_lt) hraw).1 hbit).2

/-- **Recorded chunks are durable.** A device that starts without a record and receives one file
    under one key, in any number of sessions, with any number of workers in any order, stopped and
    cut off from power at any point: a bit the record sets is for a chunk whose bytes hash to their
    digest on the device, whatever of the unsynced writes is lost, then and at any later time. -/
theorem recorded_chunks_durable {blake3 : Blake3} {T : Set Hash} (hcf : CollisionFreeOn blake3 T)
    {key : StateKey} {l : ChunkLayout} {hs : List Hash} (hkey : key.Commits blake3 l hs)
    (hroot : key.rootHash ∈ T) (hT : ∀ h ∈ hs, h ∈ T) {dest : FilePath} {disk : FileSystem}
    (hnone : disk.contents (statePath dest) = none) {as : List DeviceAct} {w : Device}
    (has : ∀ a ∈ as, a.Reoffers blake3 dest key)
    (hrun : (Device.idle disk).runs blake3 as = some w) {i : Nat}
    (hbit : recordedBit blake3 w.disk dest key i = true) :
    ∃ ino, w.disk.node dest = some (.file ino) ∧ ChunkHeld blake3 l hs (w.disk.durable ino) i ∧
      ∀ later w', (∀ a ∈ later, a.Reoffers blake3 dest key) → w.runs blake3 later = some w' →
        ∃ ino', w'.disk.node dest = some (.file ino') ∧
          ChunkHeld blake3 l hs (w'.disk.durable ino') i := by
  have hstart : (Device.idle disk).Secure blake3 key l hs dest := by
    intro ino hino
    rw [Disk.contents_of_node hino] at hnone
    cases hnone
  obtain ⟨hsecure, -⟩ := hstart.runs hcf hkey hroot hT has hrun
  have hlasting := hsecure.record.lasting hbit
  obtain ⟨ino, hino, hheld, -⟩ := id hlasting
  refine ⟨ino, hino, hheld, fun later w' hlater hrun' => ?_⟩
  obtain ⟨ino', hino', hheld', -⟩ := (hsecure.runs hcf hkey hroot hT hlater hrun').2 i hlasting
  exact ⟨ino', hino', hheld'⟩

/-- The file `a` of one byte, with a checkpoint after every byte. -/
def singleOffering : Offering :=
  { config := plainConfig, outputDir := ["out"], chunkSize := 65536, entries := singleOffer,
    streamCount := 1 }

/-- The byte arrives and its worker makes a whole checkpoint. -/
def recordingRun : List SessionAct :=
  [.accept, .main .next] ++ receiveOneByte 0 0 0x41 ++ List.replicate 6 (.worker 0 .next) ++
    [.worker 0 (.write 93)] ++ List.replicate 3 (.worker 0 .next)

/-- The power fails after the checkpoint, and nothing unsynced survives. -/
def recordedThenCut : List DeviceAct :=
  [.offer singleOffering] ++ recordingRun.map .session ++ [.powerLoss fun _ _ => false]

theorem singleOffering_reoffers :
    (DeviceAct.offer singleOffering).Reoffers shortFileHash ["out", "a"] keyA := by
  refine ⟨_, rfl, fun c hc => ?_⟩
  have hrun : ((checkEntry shortFileHash plainConfig ["out"] 65536 []
      (oneByteEntry 0 "a" rootA digestA)).toOption.all fun c =>
        decide (c.dest = ["out", "a"] ∧ c.key = keyA)) = true := by
    decide +kernel
  rw [show checkEntry shortFileHash plainConfig ["out"] 65536 []
    (oneByteEntry 0 "a" rootA digestA) = .ok c from hc] at hrun
  exact of_decide_eq_true hrun

theorem recordedThenCut_reoffers :
    ∀ a ∈ recordedThenCut, a.Reoffers shortFileHash ["out", "a"] keyA := by
  intro a ha
  rw [recordedThenCut, List.append_assoc] at ha
  rcases List.mem_append.1 ha with ha | ha
  · obtain rfl := List.mem_singleton.1 ha
    exact singleOffering_reoffers
  rcases List.mem_append.1 ha with ha | ha
  · obtain ⟨b, -, rfl⟩ := List.mem_map.1 ha
    trivial
  · obtain rfl := List.mem_singleton.1 ha
    trivial

theorem recorded_chunks_durable_cut :
    ∃ (w : Device) (ino : Nat), w.disk.node ["out", "a"] = some (.file ino) ∧
      ChunkHeld shortFileHash oneByteLayout [digestA] (w.disk.durable ino) 0 ∧
      ∀ (later : List DeviceAct) (w' : Device),
        (∀ a ∈ later, a.Reoffers shortFileHash ["out", "a"] keyA) →
        w.runs shortFileHash later = some w' →
        ∃ ino', w'.disk.node ["out", "a"] = some (.file ino') ∧
          ChunkHeld shortFileHash oneByteLayout [digestA] (w'.disk.durable ino') 0 := by
  have hrun : ((Device.idle .empty).runs shortFileHash recordedThenCut).any (fun w =>
      recordedBit shortFileHash w.disk ["out", "a"] keyA 0) = true := by
    decide +kernel
  obtain ⟨w, hw, hbit⟩ := (Option.any_eq_true _ _).1 hrun
  exact ⟨w, recorded_chunks_durable collisionFreeOn_shortFileHash commits_keyA
    rootA_mem digestA_mem rfl recordedThenCut_reoffers hw hbit⟩

end AetherLink
