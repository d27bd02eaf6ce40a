import AetherLink.Proofs.Durable

set_option autoImplicit false

/-! # Records of another key

`run` opens a destination under whatever key the offer gives it, and leaves the record of another key
beside it. What the session then does to the file (`SinkFile::create` sizes it, the workers write
their chunks) is not undone in the record, so an offer of the first key believes bits whose bytes are
gone.

Where the recorded bytes are left as they are, a recorded bit is for a chunk that the file, sized to
the record's length, holds (`RecordTrue`): through the opening of the file (`RecordTrue.create`) and
through every step of a session (`Session.Linked.step`). -/

namespace AetherLink

open Bytes Storage

/-! ## The condition -/

/-- The chunks that the record beside `dest` sets for another key than `own` have the same bytes in
    both contents. -/
def SparesRecorded (blake3 : Blake3) (d : FileSystem) (dest : FilePath) (own : StateKey)
    (before after : List UInt8) : Prop :=
  ∀ key l i, key ≠ own → ChunkLayout.new key.fileSize key.chunkSize = .ok l →
    recordedBit blake3 d dest key i = true → ∀ k, k < l.len i →
      byteAt after (l.start i + k) = byteAt before (l.start i + k)

/-- What the worker is about to write to `dest` changes no byte of a chunk recorded under another
    key. -/
def Session.SparesRecords (blake3 : Blake3) (dest : FilePath) (s : Session) : SessionAct → Prop
  | .worker i (.write n) => ∀ w c st done, s.workers[i]? = some w → w.pc = .write done →
      w.current = some c → s.env.files.lookup c.fileId = some st → st.sink.path = dest →
      SparesRecorded blake3 s.env.disk dest st.key (s.env.disk.data st.sink.ino)
        (pwrite (s.env.disk.data st.sink.ino) (c.start + done) (slice w.buf done n))
  | _ => True

/-! ## True records -/

/-- What a key stands for is among the digests on which the hash has no collision. -/
structure StateKey.Vouches (blake3 : Blake3) (T : Set Hash) (key : StateKey) (l : ChunkLayout)
    (hs : List Hash) : Prop where
  commits : key.Commits blake3 l hs
  root_mem : key.rootHash ∈ T
  hashes_mem : ∀ h ∈ hs, h ∈ T

/-- The file at `dest`, sized to the offer's size, holds chunk `i`. -/
def HoldsAt (blake3 : Blake3) (l : ChunkLayout) (hs : List Hash) (d : FileSystem) (dest : FilePath)
    (i : Nat) : Prop :=
  ∃ content, d.contents dest = some content ∧ HeldSized blake3 l hs content i

/-- The record beside `dest`, if there is one, sets bits for chunks that the file holds, at the size
    it is recorded under. -/
def RecordTrue (blake3 : Blake3) (T : Set Hash) (dest : FilePath) (d : FileSystem) : Prop :=
  ∀ raw, d.contents (statePath dest) = some raw → ∃ key l hs b, raw = Resume.record blake3 key b ∧
    key.Vouches blake3 T l hs ∧ b.Wf ∧ b.count = l.count ∧
      ∀ i, b.has i = true → HoldsAt blake3 l hs d dest i

section RecordTrue

variable {blake3 : Blake3} {T : Set Hash} {dest : FilePath} {d d' : FileSystem}

/-- A record that is left alone stays true as long as the file keeps the chunks it sets. -/
theorem RecordTrue.keep (h : RecordTrue blake3 T dest d)
    (hrec : d'.contents (statePath dest) = d.contents (statePath dest))
    (hholds : ∀ key l hs i, key.Vouches blake3 T l hs → recordedBit blake3 d dest key i = true →
      HoldsAt blake3 l hs d dest i → HoldsAt blake3 l hs d' dest i) :
    RecordTrue blake3 T dest d' := by
  intro raw hraw
  rw [hrec] at hraw
  obtain ⟨key, l, hs, b, rfl, hv, hwf, hcount, hbits⟩ := h raw hraw
  refine ⟨key, l, hs, b, rfl, hv, hwf, hcount, fun i hi => hholds key l hs i hv ?_ (hbits i hi)⟩
  exact (recordedBit_iff hwf (hcount ▸ l.count_lt) hraw).2 ⟨rfl, hi⟩

/-- **A true record is believed rightly**: what `load` returns is true of the file. -/
theorem RecordTrue.load (hcf : CollisionFreeOn blake3 T) (h : RecordTrue blake3 T dest d)
    {key : StateKey} {l : ChunkLayout} {hs : List Hash} (hkey : key.Commits blake3 l hs)
    {b : ChunkBitmap} (hload : Resume.load blake3 d dest key = some b) :
    b.Wf ∧ b.count = l.count ∧
      ∃ content, d.contents dest = some content ∧ Truthful blake3 l hs content b := by
  cases hraw : d.contents (statePath dest) with
  | none =>
      rw [Resume.load, hraw] at hload
      cases hload
  | some raw =>
      obtain ⟨key', l', hs', b', rfl, hv, hwf, hcount, hbits⟩ := h raw hraw
      obtain ⟨rfl, rfl, content, hcontent, hlen⟩ :=
        (Resume.load_of_record hwf (hcount ▸ l'.count_lt) hraw).1 hload
      obtain ⟨rfl, rfl⟩ := hv.commits.unique hcf hv.root_mem hkey
      refine ⟨hwf, hcount, content, hcontent, fun i hi => ?_⟩
      obtain ⟨content', hcontent', hheld⟩ := hbits i hi
      obtain rfl := Option.some.inj (hcontent.symm.trans hcontent')
      exact hheld.held (hlen.trans (ChunkLayout.new_ok hkey.layout_ok).1.symm)

/-- **What `SinkFile::create` does to a true record**: under its own key nothing, and under another
    key nothing if the sizing spares it. -/
theorem RecordTrue.create (hcf : CollisionFreeOn blake3 T) (h : RecordTrue blake3 T dest d)
    {path : FilePath} {size : UInt64} {chunkSize : UInt32} {io : SinkIo} (own : StateKey)
    (hsize : own.fileSize = size) (hstate : statePath dest ≠ path)
    (hspares : path = dest → ∀ reserved, io = .opened (.done reserved) →
      SparesRecorded blake3 d dest own ((d.contents dest).getD [])
        (sized ((d.contents dest).getD []) size.toNat)) :
    RecordTrue blake3 T dest (SinkFile.create d path size chunkSize io).1 := by
  refine h.keep (SinkFile.create_untouched d size chunkSize io hstate).contents ?_
  rintro key l hs i hv hbit ⟨content, hcontent, hheld⟩
  by_cases hpath : path = dest
  swap
  · refine ⟨content, ?_, hheld⟩
    rw [(SinkFile.create_untouched d size chunkSize io (Ne.symm hpath)).contents, hcontent]
  subst hpath
  obtain ⟨ino, hino, rfl⟩ := Disk.contents_eq_some hcontent
  obtain ⟨hnode, -, ops, hops, -, hdata, hbytes⟩ :=
    SinkFile.create_resizes d path size chunkSize io hino
  refine ⟨_, Disk.contents_of_node hnode, ?_⟩
  rw [hdata]
  by_cases hkey : key = own
  · subst hkey
    refine hheld.applyAll hcf hv.hashes_mem fun op hop => ?_
    obtain ⟨n, hn, rfl⟩ := hops op hop
    refine .resize ?_
    rw [(ChunkLayout.new_ok hv.commits.layout_ok).1, hsize]
    exact hn
  · refine hheld.of_bytes hcf hv.hashes_mem fun k hk => hbytes _ fun reserved hio => ?_
    have := hspares rfl reserved hio key l i hkey hv.commits.layout_ok hbit k hk
    rwa [hcontent, Option.getD_some] at this

/-- **What a worker's write does to a true record**: under its own key nothing, and under another key
    nothing if the write spares it. -/
theorem RecordTrue.sinkWrite (hcf : CollisionFreeOn blake3 T) (h : RecordTrue blake3 T dest d)
    {st : FileState} {off : Nat} {bs : List UInt8}
    (hnode : d.node st.sink.path = some (.file st.sink.ino)) (hoff : st.sink.path ≠ statePath dest)
    (hvouches : st.key.Vouches blake3 T st.layout st.chunkHashes)
    (hlawful : Lawful blake3 st.layout st.chunkHashes (.pwrite off bs))
    (hspares : st.sink.path = dest → SparesRecorded blake3 d dest st.key (d.data st.sink.ino)
      (pwrite (d.data st.sink.ino) off bs)) :
    RecordTrue blake3 T dest ((Effect.pwrite st.sink.ino off bs).onDisk d) := by
  have hne : ∀ {q}, q ≠ st.sink.path → d.node q ≠ some (.file st.sink.ino) :=
    fun hq hnode' => hq (d.node_inj _ _ _ hnode' hnode)
  refine h.keep (Effect.spares_pwrite (hne hoff.symm)).contents ?_
  rintro key l hs i hv hbit ⟨content, hcontent, hheld⟩
  by_cases hpath : st.sink.path = dest
  swap
  · refine ⟨content, ?_, hheld⟩
    rw [(Effect.spares_pwrite (hne (Ne.symm hpath))).contents, hcontent]
  subst hpath
  obtain rfl := Option.some.inj ((Disk.contents_of_node hnode).symm.trans hcontent)
  refine ⟨_, Disk.contents_of_node hnode, ?_⟩
  rw [((Effect.pwrite st.sink.ino off bs).onInode (d.node_lt _ _ hnode)).data]
  simp only [Effect.ops, if_true]
  by_cases hkey : key = st.key
  · subst hkey
    obtain ⟨rfl, rfl⟩ := hv.commits.unique hcf hv.root_mem hvouches.commits
    exact hheld.applyAll hcf hv.hashes_mem fun op hop => List.mem_singleton.1 hop ▸ hlawful
  · exact hheld.of_bytes hcf hv.hashes_mem (hspares rfl key l i hkey hv.commits.layout_ok hbit)

end RecordTrue

/-! ## One session -/

/-- A session whose files are apart from the record of `dest`, which is true. -/
structure Session.Linked (blake3 : Blake3) (T : Set Hash) (dest : FilePath) (s : Session) : Prop where
  tidy : s.Tidy blake3
  off : ∀ id st, s.env.files.lookup id = some st →
    st.sink.path ≠ statePath dest ∧ dest ≠ statePath st.sink.path ∧ dest ≠ tmpPath st.sink.path
  vouches : ∀ id st, s.env.files.lookup id = some st → st.sink.path = dest →
    st.key.Vouches blake3 T st.layout st.chunkHashes
  truth : ∀ id st, s.env.files.lookup id = some st → st.sink.path = dest → Truth blake3 s id st
  snapshots : ∀ a id cp b st, s.checkpointOf a = some (id, cp) → cp.snapshot? = some b →
    s.env.files.lookup id = some st → st.sink.path = dest →
    b.Wf ∧ b.count = st.layout.count ∧
      Truthful blake3 st.layout st.chunkHashes (s.env.disk.data st.sink.ino) b
  record : RecordTrue blake3 T dest s.env.disk

section Linked

variable {p : Params} {T : Set Hash} (hcf : CollisionFreeOn p.blake3 T) {dest : FilePath}
  {s s' : Session} {a : SessionAct} {e : Effect}

namespace Session.Linked

include hcf

/-- **A recorded chunk after a step.** Under its own key the file is only written lawfully; under
    another key the step spares the chunk. -/
theorem holdsAt_step (h : s.Linked p.blake3 T dest) (heff : s.stepEffect p a = some (s', e))
    (hspares : s.SparesRecords p.blake3 dest a) {key : StateKey} {l : ChunkLayout} {hs : List Hash}
    {i : Nat} (hv : key.Vouches p.blake3 T l hs)
    (hbit : recordedBit p.blake3 s.env.disk dest key i = true)
    (hholds : HoldsAt p.blake3 l hs s.env.disk dest i) :
    HoldsAt p.blake3 l hs s'.env.disk dest i := by
  have hmove := Session.stepEffect_moves heff
  obtain ⟨content, hcontent, hheld⟩ := hholds
  have hdisk : s'.env.disk = e.onDisk s.env.disk := by rw [hmove.env_eq, Env.apply_disk]
  rw [hdisk]
  by_cases hfile : ∃ id st, s.env.files.lookup id = some st ∧ st.sink.path = dest
  swap
  · -- the session has no file at `dest`
    refine ⟨content, ?_, hheld⟩
    rw [(h.tidy.spares hmove fun id st hst => ?_).contents, hcontent]
    exact ⟨fun heq => hfile ⟨id, st, hst, heq.symm⟩, (h.off id st hst).2⟩
  obtain ⟨id, st, hst, rfl⟩ := hfile
  have hnode := h.tidy.wired.named id st hst
  obtain rfl := Option.some.inj ((Disk.contents_of_node hnode).symm.trans hcontent)
  have hnode' : (e.onDisk s.env.disk).node st.sink.path = some (.file st.sink.ino) := by
    rw [Effect.node_onDisk fun hmem => h.tidy.apart.offDestinations hmove _ hmem id st hst rfl]
    exact hnode
  refine ⟨_, Disk.contents_of_node hnode', ?_⟩
  rw [(e.onInode (h.tidy.wired.lt hst)).data]
  by_cases hkey : key = st.key
  · subst hkey
    obtain ⟨rfl, rfl⟩ := hv.commits.unique hcf hv.root_mem (h.vouches id st hst rfl).commits
    exact hheld.applyAll hcf hv.hashes_mem (h.tidy.lawful hmove hst)
  · rcases h.tidy.sink_write heff hst with hnil | ⟨j, n, w, c, done, rfl, hw, hpc, hcur, hst', hops⟩
    · rw [hnil]
      exact hheld
    · rw [hops]
      refine hheld.of_bytes hcf hv.hashes_mem ?_
      exact hspares w c st done hw hpc hcur hst' rfl key l i hkey hv.commits.layout_ok hbit

/-- The record after a step. -/
theorem record_step (hname : Named dest) (h : s.Linked p.blake3 T dest)
    (heff : s.stepEffect p a = some (s', e)) (hspares : s.SparesRecords p.blake3 dest a) :
    RecordTrue p.blake3 T dest s'.env.disk := by
  have hmove := Session.stepEffect_moves heff
  rcases h.tidy.record_cases hmove hname fun id st hst => (h.off id st hst).1.symm with
    hkept | ⟨b, id, st, snap, tmp, hst, rfl, hcp, hnode, hdata, -, src, dst, rfl⟩ | hnone
  · exact h.record.keep hkept.contents fun key l hs i hv hbit hholds =>
      h.holdsAt_step hcf heff hspares hv hbit hholds
  · -- the snapshot of the checkpoint that has just ended is now the record
    obtain ⟨hwf, hcount, hbits⟩ := h.snapshots b id _ snap st hcp rfl hst rfl
    intro raw hraw
    rw [Disk.contents_of_node hnode, hdata] at hraw
    obtain rfl := Option.some.inj hraw
    refine ⟨st.key, st.layout, st.chunkHashes, snap, rfl, h.vouches id st hst rfl, hwf, hcount,
      fun i hi => ?_⟩
    have hwired := h.tidy.wired.step hmove (h.tidy.apart.offDestinations hmove)
    obtain ⟨st', hst', hsame⟩ := hmove.sameStates id st hst
    have hnode' := hwired.named id st' hst'
    rw [hsame.sink] at hnode'
    refine ⟨_, Disk.contents_of_node hnode', ?_⟩
    rw [hmove.env_eq, Env.apply_disk, ((Effect.rename src dst).onInode (h.tidy.wired.lt hst)).data]
    exact (hbits i hi).heldSized
  · intro raw hraw
    rw [hraw] at hnone
    cases hnone

/-- **Every step that spares the record keeps a session linked.** -/
theorem step (hname : Named dest) (h : s.Linked p.blake3 T dest)
    (heff : s.stepEffect p a = some (s', e)) (hspares : s.SparesRecords p.blake3 dest a) :
    s'.Linked p.blake3 T dest := by
  have hmove := Session.stepEffect_moves heff
  refine ⟨h.tidy.step hmove, ?_, ?_, ?_, ?_, h.record_step hcf hname heff hspares⟩
  · intro id st' hst'
    obtain ⟨st, hst, -, hsame⟩ := hmove.lookup_back hst'
    rw [hsame.sink]
    exact h.off id st hst
  · intro id st' hst' hpath
    obtain ⟨st, hst, -, hsame⟩ := hmove.lookup_back hst'
    rw [hsame.sink] at hpath
    rw [hsame.key, hsame.layout, hsame.chunkHashes]
    exact h.vouches id st hst hpath
  · intro id st' hst' hpath
    obtain ⟨st, hst, rfl, hsame⟩ := hmove.lookup_back hst'
    rw [hsame.sink] at hpath
    exact (h.truth id st hst hpath).step hcf hmove h.tidy.fits (h.vouches id st hst hpath).hashes_mem
      hst (h.tidy.wired.lt hst) (h.tidy.lawful hmove hst)
  · intro b id cp snap st' hcp hsnap hst' hpath
    obtain ⟨st, hst, -, hsame⟩ := hmove.lookup_back hst'
    rw [hsame.sink] at hpath ⊢
    rw [hsame.layout, hsame.chunkHashes]
    have hsnap' : snap.Wf ∧ snap.count = st.layout.count ∧
        Truthful p.blake3 st.layout st.chunkHashes (s.env.disk.data st.sink.ino) snap := by
      rcases hmove.snapshot_cases hcp hsnap with ⟨cp₀, hcp₀, hsnap₀⟩ | ⟨st₀, hst₀, rfl⟩
      · exact h.snapshots b id cp₀ snap st hcp₀ hsnap₀ hst hpath
      · obtain rfl := Option.some.inj (hst.symm.trans hst₀)
        have htruth := h.truth id st hst hpath
        exact ⟨htruth.wf, htruth.count_eq, htruth.bits⟩
    refine ⟨hsnap'.1, hsnap'.2.1, fun i hi => ?_⟩
    rw [hmove.env_eq, Env.apply_disk, (e.onInode (h.tidy.wired.lt hst)).data]
    exact held_applyAll hcf (h.vouches id st hst hpath).hashes_mem (h.tidy.lawful hmove hst)
      (hsnap'.2.2 i hi)

end Session.Linked

end Linked

end AetherLink
