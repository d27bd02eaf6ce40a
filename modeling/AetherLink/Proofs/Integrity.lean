import AetherLink.Proofs.Names

set_option autoImplicit false

/-! # In-session integrity

Whatever a peer sends on any number of streams, a set bit means that the file holds the committed
bytes. The argument is about one file at a time and about the operations that reach its inode: as
long as these are lawful, nothing that is in place is lost, and a worker sets a bit only over a
payload that it has written from end to end (`Truth`).

What reaches the inode is the workers' writes, which are pieces of payloads, unless a record
operation opens the file under another name: a checkpoint truncates `x.tmp`, which can be the
destination of another entry. -/

namespace AetherLink

open Bytes Storage

/-! ## Truth of one file -/

/-- What a worker on its way to a bit of file `id` has written is in the content. -/
structure InPlace (content : List UInt8) (id : UInt64) (w : Worker) : Prop where
  writing : ∀ c done, w.current = some c → c.fileId = id → w.pc = .write done →
    Carries content c.start (w.buf.take done)
  marking : ∀ c, w.current = some c → c.fileId = id → w.pc = .mark →
    Carries content c.start w.buf

theorem InPlace.of_not_verified {content : List UInt8} {id : UInt64} {w : Worker}
    (h : ¬ w.pc.Verified) : InPlace content id w :=
  ⟨fun _ _ _ _ hpc => absurd (by simp [hpc, WorkerPc.Verified]) h,
    fun _ _ _ hpc => absurd (by simp [hpc, WorkerPc.Verified]) h⟩

/-- The bitmap of file `id` is true of the disk, and what the workers on their way to a bit have
    written is in place. -/
structure Truth (blake3 : Blake3) (s : Session) (id : UInt64) (st : FileState) : Prop where
  wf : st.bitmap.Wf
  count_eq : st.bitmap.count = st.layout.count
  bits : Truthful blake3 st.layout st.chunkHashes (s.env.disk.data st.sink.ino) st.bitmap
  inPlace : ∀ w ∈ s.workers, InPlace (s.env.disk.data st.sink.ino) id w

/-- **Lawful operations keep what is in place**: what a worker has written of its payload. -/
theorem InPlace.applyAll {blake3 : Blake3} {T : Set Hash} (hcf : CollisionFreeOn blake3 T)
    {files : Files} {w : Worker} {id : UInt64} {st : FileState} {content : List UInt8}
    {ops : List DataOp} (h : InPlace content id w) (hw : w.Fits blake3 files)
    (hst : files.lookup id = some st) (hT : ∀ x ∈ st.chunkHashes, x ∈ T)
    (hops : ∀ op ∈ ops, Lawful blake3 st.layout st.chunkHashes op) :
    InPlace (applyAll content ops) id w := by
  have hold : ∀ c, w.current = some c → c.fileId = id → ∀ n, w.pc.Verified →
      Carries content c.start (w.buf.take n) →
      Carries (Storage.applyAll content ops) c.start (w.buf.take n) := by
    intro c hc hid n hv hcar
    obtain ⟨st', hst', hof⟩ := hw.current c hc
    obtain rfl := Option.some.inj (hst.symm.trans (hid ▸ hst'))
    have hpay := hw.payload hv c st hc (hid ▸ hst)
    rw [hof.start_eq] at hcar ⊢
    exact applyAll_invariant (P := fun x => Carries x (st.layout.start c.chunkIndex) (w.buf.take n))
      (fun op hop x hx => (hops op hop).carries hcf hT hpay hx) hcar
  refine ⟨fun c done hc hid hpc => ?_, fun c hc hid hpc => ?_⟩
  · exact hold c hc hid done (by simp [hpc, WorkerPc.Verified]) (h.writing c done hc hid hpc)
  · have := hold c hc hid w.buf.length (by simp [hpc, WorkerPc.Verified])
    rw [List.take_length] at this
    exact this (h.marking c hc hid hpc)

section Truth

variable {p : Params} {T : Set Hash} (hcf : CollisionFreeOn p.blake3 T)
  {s s' : Session} {e : Effect} {id : UInt64} {st : FileState}
include hcf

/-- **What a step makes of the truth about a file** whose inode only lawful operations reach. -/
theorem Truth.step (h : SessionMove p s s' e) (hfits : s.Fits p.blake3)
    (hT : ∀ x ∈ st.chunkHashes, x ∈ T) (hst : s.env.files.lookup id = some st)
    (hlt : st.sink.ino < s.env.disk.nextIno)
    (hops : ∀ op ∈ e.ops s.env.disk st.sink.ino, Lawful p.blake3 st.layout st.chunkHashes op)
    (ht : Truth p.blake3 s id st) : Truth p.blake3 s' id (e.onFile id st) := by
  have hdisk : s'.env.disk = e.onDisk s.env.disk := by rw [h.env_eq, Env.apply_disk]
  have hon : Effect.OnInode s.env.disk s'.env.disk e st.sink.ino := hdisk ▸ e.onInode hlt
  have hsame := e.sameFile_onFile id st
  have hbits : Truthful p.blake3 st.layout st.chunkHashes (s'.env.disk.data st.sink.ino)
      st.bitmap := by
    intro i hi
    rw [hon.data]
    exact held_applyAll hcf hT hops (ht.bits i hi)
  -- a worker that has not moved has its bytes still in place
  have hstill : ∀ w ∈ s.workers, InPlace (s'.env.disk.data st.sink.ino) id w := by
    intro w hw
    rw [hon.data]
    exact (ht.inPlace w hw).applyAll hcf (hfits w hw) hst hT hops
  -- a step that sets no bit of this file: only the workers are left to check
  have hkeep : (∀ i, e ≠ .setBit id i) →
      (∀ w ∈ s'.workers, InPlace (s'.env.disk.data st.sink.ino) id w) →
      Truth p.blake3 s' id (e.onFile id st) := by
    intro hne hplace
    have hbm := Effect.bitmap_onFile_of_ne id st hne
    refine ⟨hbm ▸ ht.wf, ?_, ?_, ?_⟩
    · rw [hbm, hsame.layout]
      exact ht.count_eq
    · rw [hsame.layout, hsame.chunkHashes, hsame.sink, hbm]
      exact hbits
    · rw [hsame.sink]
      exact hplace
  cases h with
  | @arrives i w hw hopen inbox closed =>
      refine hkeep (by simp) fun w' hmem => ?_
      rcases List.mem_or_eq_of_mem_set hmem with hmem | rfl
      · exact hstill w' hmem
      · have := hstill w (List.mem_of_getElem? hw)
        exact ⟨this.writing, this.marking⟩
  | accepts hmain =>
      refine hkeep (by simp) fun w hmem => ?_
      rcases List.mem_append.1 hmem with hmem | hmem
      · exact hstill w hmem
      · obtain rfl := List.mem_singleton.1 hmem
        exact InPlace.of_not_verified fun hv => hv
  | refuses hmain error => exact hkeep (by simp) hstill
  | joins hmain hended horder hnext => exact hkeep (by simp) hstill
  | main hmove => exact hkeep (fun i => hmove.not_setBit id i) hstill
  | @worker i w w' e hw hmove =>
      have hmem := List.mem_of_getElem? hw
      -- it is enough to look at the worker that has moved
      have hmoved : (∀ i, e ≠ .setBit id i) → InPlace (s.env.apply e |>.disk.data st.sink.ino) id w' →
          Truth p.blake3 { s with env := s.env.apply e, workers := s.workers.set i w' } id
            (e.onFile id st) := by
        intro hne hw'
        refine hkeep hne fun v hv => ?_
        rcases List.mem_or_eq_of_mem_set hv with hv | rfl
        · exact hstill v hv
        · exact hw'
      cases hmove with
      | skips hpc hlen hdec htype =>
          exact hmoved (by simp) (InPlace.of_not_verified (by simp [hpc, WorkerPc.Verified]))
      | buffers hpc hcur hn =>
          refine hmoved (by simp) (InPlace.of_not_verified fun hv => ?_)
          simp only at hv
          split at hv <;> exact hv
      | reports hpc =>
          refine hmoved (by simp) (InPlace.of_not_verified fun hv => ?_)
          simp only at hv
          split at hv <;> exact hv
      | verifies hpc hcur hs hdigest =>
          refine hmoved (by simp) ⟨fun c done _ _ hdone => ?_, by simp⟩
          cases hdone
          exact carries_nil _ _
      | @writes c st' done n hpc hcur hs hn hfits' =>
          refine hmoved (by simp) ⟨fun c' done' hc' hid hdone => ?_, by simp⟩
          cases hdone
          obtain rfl := Option.some.inj (hcur.symm.trans hc')
          obtain rfl := Option.some.inj (hst.symm.trans (hid ▸ hs))
          have hcar := (ht.inPlace w hmem).writing c done hcur hid hpc
          have := hcar.after_pwrite_next (by omega) n
          rw [hdisk] at hon
          rw [Env.apply_disk, hon.data]
          simpa [Effect.ops, applyAll, DataOp.apply] using this
      | written hpc =>
          refine hmoved (by simp) ⟨by simp, fun c hc hid _ => ?_⟩
          have := (hstill w hmem).writing c w.buf.length hc hid hpc
          rwa [List.take_length] at this
      | @marks c st' b hpc hcur hs hset =>
          by_cases hid : c.fileId = id
          · subst hid
            obtain rfl := Option.some.inj (hst.symm.trans hs)
            -- the bit that is set is for a payload the worker has written from end to end
            have hpay := (hfits w hmem).payload (by simp [hpc, WorkerPc.Verified]) c st hcur hst
            have hcar := (hstill w hmem).marking c hcur rfl hpc
            obtain ⟨st', hst', hof⟩ := (hfits w hmem).current c hcur
            obtain rfl := Option.some.inj (hst.symm.trans hst')
            have hbm : (Effect.onFile c.fileId st (.setBit c.fileId c.chunkIndex)).bitmap = b := by
              simp only [Effect.onFile, if_true, hset]
            refine ⟨hbm ▸ ht.wf.set hset, ?_, ?_, ?_⟩
            · rw [hbm, hsame.layout, ChunkBitmap.count_of_set hset]
              exact ht.count_eq
            · rw [hsame.layout, hsame.chunkHashes, hsame.sink, hbm]
              intro j hj
              rw [ChunkBitmap.has_of_set ht.wf hset, Bool.or_eq_true, decide_eq_true_eq] at hj
              rcases hj with hj | rfl
              · exact hbits j hj
              · exact (chunkHeld_iff_carries _ _).2 ⟨w.buf, hpay, hof.start_eq ▸ hcar⟩
            · rw [hsame.sink]
              intro v hv
              rcases List.mem_or_eq_of_mem_set hv with hv | rfl
              · exact hstill v hv
              · exact InPlace.of_not_verified fun hv => hv
          · refine hmoved (fun i he => ?_) (InPlace.of_not_verified fun hv => hv)
            cases he
            exact hid rfl
      | checkpoints hpc hcur hs hmove =>
          exact hmoved (fun i => hmove.not_setBit id i) (InPlace.of_not_verified fun hv => hv)
      | checkpointed hpc hcur hs hmove =>
          exact hmoved (fun i => hmove.not_setBit id i) (InPlace.of_not_verified fun hv => hv)
      | _ => exact hmoved (by simp) (InPlace.of_not_verified fun hv => hv)

end Truth

/-! ## What reaches a sink -/

/-- One write of a piece of a payload of chunk `i` to the range of chunk `i`. -/
inductive ChunkWrite (blake3 : Blake3) (l : ChunkLayout) (hs : List Hash) : DataOp → Prop
  | mk {i : Nat} {q : List UInt8} (hq : IsPayload blake3 l hs i q) {k n : Nat}
      (h : k + n ≤ q.length) : ChunkWrite blake3 l hs (.pwrite (l.start i + k) (slice q k n))

theorem ChunkWrite.lawful {blake3 : Blake3} {l : ChunkLayout} {hs : List Hash} {op : DataOp}
    (h : ChunkWrite blake3 l hs op) : Lawful blake3 l hs op := by
  cases h with
  | mk hq h => exact .piece hq _ _

/-- **Only pieces of payloads reach a sink**, while record operations keep off the destinations. -/
theorem Session.Wired.chunkWrites {p : Params} {s s' : Session} {e : Effect}
    (h : SessionMove p s s' e) (hfits : s.Fits p.blake3) (hoff : OffDestinations s.env.files e)
    (hw : s.Wired) {id : UInt64} {st : FileState} (hst : s.env.files.lookup id = some st) :
    ∀ op ∈ e.ops s.env.disk st.sink.ino, ChunkWrite p.blake3 st.layout st.chunkHashes op := by
  have hlt := hw.lt hst
  have hnil : e.ops s.env.disk st.sink.ino = [] →
      ∀ op ∈ e.ops s.env.disk st.sink.ino, ChunkWrite p.blake3 st.layout st.chunkHashes op := by
    intro hn op hop
    rw [hn] at hop
    cases hop
  have hmoves : ∀ a id0 pc next st0, s.checkpointOf a = some (id0, pc) →
      CheckpointMove p.blake3 s.env.disk st0 pc next e → e.ops s.env.disk st.sink.ino = [] := by
    intro a id0 pc next st0 hcp hmove
    cases hmove with
    | creates snapshot hc =>
        simp only [Effect.ops]
        rw [if_neg]
        intro hnode
        have hpath := s.env.disk.node_inj _ _ _ hnode (hw.named id st hst)
        exact hoff _ (by simp [Effect.recordPaths]) id st hst hpath
    | writes snapshot tmp hn hfit =>
        simp only [Effect.ops]
        rw [if_neg (hw.handles a id0 _ tmp id st hcp rfl hst)]
    | _ => rfl
  cases h.turn with
  | elsewhere hplain hcp => exact hnil (hplain.ops_eq_nil hlt)
  | begins a id0 hplain hpc' hothers => exact hnil (hplain.ops_eq_nil hlt)
  | goesOn a id0 pc pc' st0 hst0 hmove hpc hpc' hothers =>
      exact hnil (hmoves a id0 pc _ st0 hpc hmove)
  | finishes a id0 pc r st0 hst0 hmove hpc hpc' hothers =>
      exact hnil (hmoves a id0 pc _ st0 hpc hmove)
  | sinkWrite w c st0 done n hmem hpc hcur hst0 hfit heff hcp =>
      intro op hop
      rw [heff] at hop
      simp only [Effect.ops] at hop
      split at hop
      · next hino =>
          obtain rfl := List.mem_singleton.1 hop
          have hid := hw.distinct _ _ _ _ hst0 hst hino
          subst hid
          obtain rfl := Option.some.inj (hst.symm.trans hst0)
          obtain ⟨st1, hst1, hof⟩ := (hfits w hmem).current c hcur
          obtain rfl := Option.some.inj (hst.symm.trans hst1)
          have hpay := (hfits w hmem).payload (by simp [hpc, WorkerPc.Verified]) c st hcur hst
          rw [hof.start_eq]
          exact .mk hpay hfit
      · cases hop
  | sinkSync id0 st0 hst0 hmain heff hcp => exact hnil (by rw [heff]; rfl)
  | removes id0 st0 hst0 path hpath hmain heff hcp => exact hnil (by rw [heff]; rfl)

/-! ## Whole sessions -/

/-- A session that has just written `Accept`: no worker yet, every destination names its sink, sinks
    are distinct, and every bitmap is empty or rebuilt from what is on disk. -/
structure Session.Fresh (blake3 : Blake3) (T : Set Hash) (s : Session) : Prop where
  workers : s.workers = []
  main : ∃ n, s.main = .spawning n
  named : ∀ id st, s.env.files.lookup id = some st →
    s.env.disk.node st.sink.path = some (.file st.sink.ino)
  distinct : ∀ id id' st st', s.env.files.lookup id = some st →
    s.env.files.lookup id' = some st' → st.sink.ino = st'.sink.ino → id = id'
  layout : ∀ id st, s.env.files.lookup id = some st → st.sink.layout = st.layout
  hashes : ∀ id st, s.env.files.lookup id = some st → ∀ h ∈ st.chunkHashes, h ∈ T
  bitmap : ∀ id st, s.env.files.lookup id = some st →
    st.bitmap = ChunkBitmap.new st.layout.count ∨
      ∃ readable, Resume.rebuildByVerification blake3 s.env.disk st.sink st.chunkHashes readable
        = .ok st.bitmap

theorem Session.Fresh.wired {blake3 : Blake3} {T : Set Hash} {s : Session}
    (h : s.Fresh blake3 T) : s.Wired := by
  refine ⟨h.named, h.distinct, ?_⟩
  intro a id pc tmp id' st hcp
  obtain ⟨n, hmain⟩ := h.main
  cases a with
  | none => simp [Session.checkpointOf, hmain, MainPc.checkpoint?] at hcp
  | some i => simp [Session.checkpointOf, h.workers] at hcp

/-- What a session that started as `s₀` keeps. -/
structure Intact (blake3 : Blake3) (T : Set Hash) (s₀ s : Session) : Prop where
  fits : s.Fits blake3
  wired : s.Wired
  hashes : ∀ id st, s.env.files.lookup id = some st → ∀ h ∈ st.chunkHashes, h ∈ T
  truth : ∀ id st, s.env.files.lookup id = some st → Truth blake3 s id st
  log : ∀ id st, s.env.files.lookup id = some st →
    ∃ ops, s.env.disk.log st.sink.ino = s₀.env.disk.log st.sink.ino ++ ops ∧
      ∀ op ∈ ops, ChunkWrite blake3 st.layout st.chunkHashes op

theorem Session.Fresh.intact {blake3 : Blake3} {T : Set Hash} {s : Session}
    (h : s.Fresh blake3 T) : Intact blake3 T s s where
  fits := by
    intro w hw
    rw [h.workers] at hw
    cases hw
  wired := h.wired
  hashes := h.hashes
  truth := by
    intro id st hst
    have hplace : ∀ w ∈ s.workers, InPlace (s.env.disk.data st.sink.ino) id w := by
      intro w hw
      rw [h.workers] at hw
      cases hw
    rcases h.bitmap id st hst with hnew | ⟨readable, hrebuilt⟩
    · refine ⟨hnew ▸ ChunkBitmap.wf_new _, by rw [hnew]; rfl, ?_, hplace⟩
      rw [hnew]
      exact Resume.truthful_new _ _ _ _
    · have hr := Resume.rebuildByVerification_ok hrebuilt
      have hlayout := h.layout id st hst
      exact ⟨hr.wf, hlayout ▸ hr.count_eq, hlayout ▸ hr.truthful, hplace⟩
  log := fun id st _ => ⟨[], (List.append_nil _).symm, nofun⟩

theorem Intact.step {p : Params} {T : Set Hash} (hcf : CollisionFreeOn p.blake3 T)
    {s₀ s s' : Session} {a : SessionAct} (h : Intact p.blake3 T s₀ s) (hoff : RecordsApart p s a)
    (hstep : s.step p a = some s') : Intact p.blake3 T s₀ s' := by
  obtain ⟨e, heff, hmove⟩ := Session.step_moves hstep
  have hoff' := hoff s' e heff
  have hwrites := fun {id : UInt64} {st : FileState} (hst : s.env.files.lookup id = some st) =>
    h.wired.chunkWrites hmove h.fits hoff' hst
  refine ⟨hmove.fits h.fits, h.wired.step hmove hoff', ?_, ?_, ?_⟩
  · intro id st' hst'
    obtain ⟨st, hst, -, hsame⟩ := hmove.lookup_back hst'
    rw [hsame.chunkHashes]
    exact h.hashes id st hst
  · intro id st' hst'
    obtain ⟨st, hst, rfl, hsame⟩ := hmove.lookup_back hst'
    exact (h.truth id st hst).step hcf hmove h.fits (h.hashes id st hst) hst (h.wired.lt hst)
      fun op hop => (hwrites hst op hop).lawful
  · intro id st' hst'
    obtain ⟨st, hst, -, hsame⟩ := hmove.lookup_back hst'
    obtain ⟨ops, hlog, hops⟩ := h.log id st hst
    have hon := e.onInode (h.wired.lt hst)
    refine ⟨ops ++ e.ops s.env.disk st.sink.ino, ?_, ?_⟩
    · rw [hsame.sink, hmove.env_eq, Env.apply_disk, hon.log, hlog, List.append_assoc]
    · intro op hop
      rw [hsame.layout, hsame.chunkHashes]
      rcases List.mem_append.1 hop with hop | hop
      · exact hops op hop
      · exact hwrites hst op hop

/-- **In-session integrity.** In every state a session reaches while its record operations keep off
    the destinations, whatever arrives on the streams: a set bit is for a chunk the file holds; every
    byte written to a sink since the start belongs to a payload of the chunk whose range it lies in;
    and a file whose bitmap is complete starts with the one content its offer commits to. -/
theorem session_integrity {p : Params} {T : Set Hash} (hcf : CollisionFreeOn p.blake3 T)
    {s₀ s : Session} {as : List SessionAct} (hfresh : s₀.Fresh p.blake3 T)
    (hrun : s₀.runs p as = some s) (hoff : Run.Meets (Session.step p) (RecordsApart p) s₀ as)
    (id : UInt64) (st : FileState) (hst : s.env.files.lookup id = some st) :
    Truthful p.blake3 st.layout st.chunkHashes (s.env.disk.data st.sink.ino) st.bitmap ∧
    (∃ ops, s.env.disk.log st.sink.ino = s₀.env.disk.log st.sink.ino ++ ops ∧
      ∀ op ∈ ops, ChunkWrite p.blake3 st.layout st.chunkHashes op) ∧
    (st.bitmap.isComplete = true → ∃ content x, s.env.disk.contents st.sink.path = some content ∧
      content.take st.layout.fileSize = x ∧ IsContent p.blake3 st.layout st.chunkHashes x ∧
      ∀ y, IsContent p.blake3 st.layout st.chunkHashes y → y = x) := by
  have hintact : Intact p.blake3 T s₀ s :=
    Run.invariant_of (I := Intact p.blake3 T s₀) (C := RecordsApart p)
      (fun _ _ _ hI hC hstep => hI.step hcf hC hstep) hfresh.intact hoff hrun
  have htruth := hintact.truth id st hst
  refine ⟨htruth.bits, hintact.log id st hst, fun hcomplete => ?_⟩
  have hall : ∀ i, i < st.layout.count →
      ChunkHeld p.blake3 st.layout st.chunkHashes (s.env.disk.data st.sink.ino) i := by
    intro i hi
    exact htruth.bits i (htruth.wf.isComplete_iff.1 hcomplete i (htruth.count_eq ▸ hi))
  have hcontent := isContent_take hall
  exact ⟨_, _, Disk.contents_of_node (hintact.wired.named id st hst), rfl, hcontent,
    fun y hy => hy.unique hcf (hintact.hashes id st hst) hcontent⟩

/-! ### Sessions on one-byte files -/

/-- A session over an accepted offer none of whose bitmaps came from a record. -/
theorem Accepted.fresh {blake3 : Blake3} {T : Set Hash} {outputDir : FilePath} {chunkSize : UInt32}
    {entries : List (FileEntry × EntryIo)} {st : OfferState}
    (h : Accepted blake3 outputDir chunkSize entries st)
    (hT : ∀ id fs, st.files.lookup id = some fs → ∀ x ∈ fs.chunkHashes, x ∈ T)
    (hmade : ∀ id fs, st.files.lookup id = some fs → fs.bitmap = ChunkBitmap.new fs.layout.count ∨
      ∃ readable, Resume.rebuildByVerification blake3 st.disk fs.sink fs.chunkHashes readable
        = .ok fs.bitmap) (streamCount : UInt32) :
    (Session.start st streamCount).Fresh blake3 T where
  workers := rfl
  main := ⟨_, rfl⟩
  named := h.named
  distinct := fun _ _ _ _ hfs hfs' => h.eq_of_ino_eq hfs hfs'
  layout := by
    intro id fs hfs
    obtain ⟨x, -, -, hserves⟩ := h.made id fs hfs
    exact hserves.sink_layout
  hashes := hT
  bitmap := hmade

/-- The digests of the session are listed and its bitmaps empty. -/
def startsEmpty (st : OfferState) : Bool :=
  st.files.entries.all fun e => decide ((∀ h ∈ e.2.chunkHashes, h ∈ shortFileDigests.map Prod.snd) ∧
    e.2.bitmap = ChunkBitmap.new e.2.layout.count)

theorem fresh_of_startsEmpty {entries : List (FileEntry × EntryIo)} {st : OfferState}
    (h : Accepted shortFileHash ["out"] 65536 entries st) (hempty : startsEmpty st = true)
    (streamCount : UInt32) :
    (Session.start st streamCount).Fresh shortFileHash (listedDigests shortFileDigests) := by
  have hall : ∀ id fs, st.files.lookup id = some fs →
      (∀ h ∈ fs.chunkHashes, h ∈ shortFileDigests.map Prod.snd) ∧
        fs.bitmap = ChunkBitmap.new fs.layout.count := by
    intro id fs hfs
    exact of_decide_eq_true (check_of_lookup hempty hfs)
  exact h.fresh (fun id fs hfs => (hall id fs hfs).1) (fun id fs hfs => Or.inl (hall id fs hfs).2) _

/-- The first of two files is there and recorded, and the byte of the second is written while its bit
    is not set. -/
theorem session_integrity_twoFile :
    ∃ s₀ s : Session, ∀ id ∈ ([0, 1] : List UInt64), ∃ st, s.env.files.lookup id = some st ∧
      st.bitmap.isComplete = decide (id = 0) ∧
      Truthful shortFileHash st.layout st.chunkHashes (s.env.disk.data st.sink.ino) st.bitmap ∧
      (∃ ops, s.env.disk.log st.sink.ino = s₀.env.disk.log st.sink.ino ++ ops ∧
        ∀ op ∈ ops, ChunkWrite shortFileHash st.layout st.chunkHashes op) ∧
      (st.bitmap.isComplete = true → ∃ content x, s.env.disk.contents st.sink.path = some content ∧
        content.take st.layout.fileSize = x ∧ IsContent shortFileHash st.layout st.chunkHashes x ∧
        ∀ y, IsContent shortFileHash st.layout st.chunkHashes y → y = x) := by
  obtain ⟨st, s, hst, hs, hcheck⟩ := exists_run checkpointed twoFileOffer 1 (twoFileRun.take 28)
    (fun st s => startsEmpty st && ([0, 1] : List UInt64).all fun id =>
      (s.env.files.lookup id).any fun fs => fs.bitmap.isComplete == decide (id = 0) &&
        !(s.env.disk.data fs.sink.ino).all (· == 0)) (by decide +kernel)
  rw [Bool.and_eq_true, List.all_eq_true] at hcheck
  have hacc := accepted_offerLoop hst
  have hnames : NamesApart (Session.start st 1).env.files := hacc.namesApart (by decide +kernel)
  refine ⟨Session.start st 1, s, fun id hid => ?_⟩
  obtain ⟨fs, hfs, hbits⟩ := (Option.any_eq_true _ _).1 (hcheck.2 id hid)
  rw [Bool.and_eq_true, beq_iff_eq] at hbits
  exact ⟨fs, hfs, hbits.1, session_integrity (p := checkpointed) collisionFreeOn_shortFileHash
    (fresh_of_startsEmpty hacc hcheck.1 1) hs (hnames.meets _) id fs hfs⟩

/-- The file `a.tmp` arrives on one stream, then the file `a` on another, whose checkpoint has just
    created its temporary file. -/
def truncatingRun : List SessionAct :=
  [.accept, .accept] ++ receiveOneByte 0 1 0x42 ++ receiveOneByte 1 0 0x41 ++
    List.replicate 6 (.worker 1 .next)

/-- The file `id` has its first bit set over a chunk it does not hold. -/
def hasFalseBit (id : UInt64) (s : Session) : Bool :=
  (s.env.files.lookup id).any fun fs => decide (fs.bitmap.has 0 = true ∧
    ¬ ChunkHeld shortFileHash fs.layout fs.chunkHashes (s.env.disk.data fs.sink.ino) 0)

/-- The checkpoint of `a` cuts the received `a.tmp` to nothing while its bit is set. -/
theorem checkpoint_truncates_received_file :
    ¬ ∀ (p : Params) (T : Set Hash) (s₀ s : Session) (as : List SessionAct),
      CollisionFreeOn p.blake3 T → s₀.Fresh p.blake3 T → s₀.runs p as = some s →
      ∀ id st, s.env.files.lookup id = some st →
        Truthful p.blake3 st.layout st.chunkHashes (s.env.disk.data st.sink.ino) st.bitmap := by
  intro hclaim
  obtain ⟨st, s, hst, hs, hcheck⟩ := exists_run checkpointed sharedNameOffer 2 truncatingRun
    (fun st s => startsEmpty st && hasFalseBit 1 s) (by decide +kernel)
  rw [Bool.and_eq_true] at hcheck
  obtain ⟨fs, hfs, hfalse⟩ := (Option.any_eq_true _ _).1 hcheck.2
  obtain ⟨hbit, hheld⟩ := of_decide_eq_true hfalse
  exact hheld (hclaim checkpointed _ _ s _ collisionFreeOn_shortFileHash
    (fresh_of_startsEmpty (accepted_offerLoop hst) hcheck.1 2) hs 1 fs hfs 0 hbit)

end AetherLink
