import AetherLink.Core.Recv.Device
import AetherLink.Proofs.Integrity
import AetherLink.Proofs.Saving

set_option autoImplicit false

/-! # The record beside a destination

What the steps of a session do to the names beside a destination, where no destination is the record
or the temporary file of another (`Session.Tidy`). The record of `q` is left alone, or replaced by
the rename that ends a checkpoint of `q`, or removed (`Session.Tidy.record_cases`); and a session
spares every name that is none of its files' (`Session.Tidy.spares`). -/

namespace AetherLink

open Bytes Storage

variable {blake3 : Blake3} {p : Params} {s s' : Session} {e : Effect} {q : FilePath}

/-- A checkpoint spares every name but its own record and temporary file. -/
theorem CheckpointMove.spares {d : FileSystem} {st : FileState} {pc : CheckpointPc}
    {next : CheckpointNext} (h : CheckpointMove blake3 d st pc next e)
    (hw : pc.Writing blake3 d st) (hstate : q ≠ statePath st.sink.path)
    (htmp : q ≠ tmpPath st.sink.path) : e.Spares d q := by
  cases h with
  | creates snap h => exact Effect.spares_createFile htmp
  | writes snap tmp hn h =>
      refine Effect.spares_pwrite fun hnode => htmp ?_
      exact d.node_inj _ _ _ hnode hw.1
  | syncs snap => exact Effect.spares_fsync
  | syncsTmp snap tmp => exact Effect.spares_fsync
  | renames snap tmp h => exact Effect.spares_rename htmp hstate
  | _ => exact plain_quiet.spares List.not_mem_nil

/-- Up to the rename, a checkpoint spares every name but its temporary file. -/
theorem CheckpointMove.spares_of_goOn {d : FileSystem} {st : FileState} {pc pc' : CheckpointPc}
    (h : CheckpointMove blake3 d st pc (.goOn pc') e) (hw : pc.Writing blake3 d st)
    (htmp : q ≠ tmpPath st.sink.path) : e.Spares d q := by
  cases h with
  | creates snap h => exact Effect.spares_createFile htmp
  | writes snap tmp hn h =>
      refine Effect.spares_pwrite fun hnode => htmp ?_
      exact d.node_inj _ _ _ hnode hw.1
  | syncs snap => exact Effect.spares_fsync
  | syncsTmp snap tmp => exact Effect.spares_fsync
  | _ => exact plain_quiet.spares List.not_mem_nil

/-- The name `q` names the file it named, if any, with the same data and nothing new to flush. -/
structure Untouched (d d' : FileSystem) (q : FilePath) : Prop where
  node : ∀ i, d'.node q = some (.file i) ↔ d.node q = some (.file i)
  data : ∀ i, d.node q = some (.file i) → d'.data i = d.data i
  pending : ∀ i, d.node q = some (.file i) → d.pending i = [] → d'.pending i = []

theorem Untouched.refl (d : FileSystem) (q : FilePath) : Untouched d d q :=
  ⟨fun _ => Iff.rfl, fun _ _ => rfl, fun _ _ hnil => hnil⟩

theorem Untouched.trans {d d' d'' : FileSystem} (h : Untouched d d' q) (h' : Untouched d' d'' q) :
    Untouched d d'' q :=
  ⟨fun i => (h'.node i).trans (h.node i),
    fun i hi => (h'.data i ((h.node i).2 hi)).trans (h.data i hi),
    fun i hi hnil => h'.pending i ((h.node i).2 hi) (h.pending i hi hnil)⟩

theorem Untouched.contents {d d' : FileSystem} (h : Untouched d d' q) :
    d'.contents q = d.contents q := by
  cases hd : d.contents q with
  | some c =>
      obtain ⟨i, hi, rfl⟩ := Disk.contents_eq_some hd
      rw [Disk.contents_of_node ((h.node i).2 hi), h.data i hi]
  | none =>
      cases hd' : d'.contents q with
      | none => rfl
      | some c =>
          obtain ⟨i, hi, -⟩ := Disk.contents_eq_some hd'
          rw [Disk.contents_of_node ((h.node i).1 hi)] at hd
          cases hd

theorem Effect.Spares.untouched {d : FileSystem} (h : e.Spares d q) :
    Untouched d (e.onDisk d) q :=
  ⟨fun i => by rw [Effect.node_onDisk h.1],
    fun i hi => (e.onInode (d.node_lt q i hi)).data_eq (h.2 i hi),
    fun _ hi hnil => h.pending hi hnil⟩

theorem Effect.Plain.untouched {d : FileSystem} (h : e.Plain) (q : FilePath) :
    Untouched d (e.onDisk d) q := by
  rw [h]
  exact .refl d q

/-- However `SinkFile::create` ends, it touches no other file. -/
theorem SinkFile.create_untouched (fs : FileSystem) {path : FilePath} (size : UInt64)
    (chunkSize : UInt32) (io : SinkIo) (hq : q ≠ path) :
    Untouched fs (SinkFile.create fs path size chunkSize io).1 q := by
  obtain ⟨made, hmade, hwhich⟩ := SinkFile.create_fst fs path size chunkSize io
  rcases hwhich with heq | ⟨opened, ino, pre, -, hopen, heq⟩
  · rw [heq]
    refine ⟨hmade.node q, fun i _ => hmade.data i, fun i _ hnil => ?_⟩
    rw [hmade.pending, hnil]
  · rw [heq]
    have hnode : ∀ i, opened.node q = some (.file i) ↔ fs.node q = some (.file i) := by
      intro i
      rw [Disk.node_of_openRW_of_ne hopen hq]
      exact hmade.node q i
    have hframe : ∀ i, fs.node q = some (.file i) → i ≠ ino ∧ opened.data i = fs.data i ∧
        opened.pending i = fs.pending i := by
      intro i hi
      obtain ⟨h1, -, h3⟩ := Disk.data_of_openRW hopen (hmade.nextIno ▸ fs.node_lt q i hi)
      refine ⟨?_, h1.trans (hmade.data i), h3.trans (hmade.pending i)⟩
      rintro rfl
      exact hq (opened.node_inj _ _ _ ((hnode i).2 hi) (Disk.node_of_openRW hopen))
    refine ⟨fun i => by rw [Disk.node_writes]; exact hnode i, fun i hi => ?_, fun i hi hnil => ?_⟩
    · rw [Disk.data_writes_of_ne _ _ (hframe i hi).1, (hframe i hi).2.1]
    · rw [Disk.pending_writes, if_neg (hframe i hi).1, (hframe i hi).2.2, hnil]

/-- However `SinkFile::create` ends, a file that was there is there, cut or extended to at least its
    size a number of times. -/
theorem SinkFile.create_resizes (fs : FileSystem) (path : FilePath) (size : UInt64)
    (chunkSize : UInt32) (io : SinkIo) {i : Nat} (hi : fs.node path = some (.file i)) :
    (SinkFile.create fs path size chunkSize io).1.node path = some (.file i) ∧
    (SinkFile.create fs path size chunkSize io).1.durable i = fs.durable i ∧
    ∃ ops, (∀ op ∈ ops, ∃ n, size.toNat ≤ n ∧ op = .setLen n) ∧
      (SinkFile.create fs path size chunkSize io).1.pending i = fs.pending i ++ ops ∧
      (SinkFile.create fs path size chunkSize io).1.data i = applyAll (fs.data i) ops ∧
      ∀ pos, (∀ reserved, io = .opened (.done reserved) →
          byteAt (sized (fs.data i) size.toNat) pos = byteAt (fs.data i) pos) →
        byteAt (applyAll (fs.data i) ops) pos = byteAt (fs.data i) pos := by
  obtain ⟨made, hmade, hwhich⟩ := SinkFile.create_fst fs path size chunkSize io
  have hmi := (hmade.node path i).2 hi
  rcases hwhich with heq | ⟨opened, ino, pre, rfl, hopen, heq⟩
  · rw [heq]
    exact ⟨hmi, hmade.durable i, [], nofun, by rw [hmade.pending, List.append_nil], hmade.data i,
      fun _ _ => rfl⟩
  · rcases Disk.openRW_cases hopen with ⟨hnode, rfl⟩ | ⟨hnone, -⟩
    · obtain rfl : i = ino := by
        rw [hmi] at hnode
        simpa using hnode
      rw [heq]
      refine ⟨by rw [Disk.node_writes, hmi], by rw [Disk.durable_writes, hmade.durable],
        preallocateOps opened i size.toNat pre, fun op hop => le_of_mem_preallocateOps hop, ?_, ?_,
        fun pos hpos => ?_⟩
      · rw [Disk.pending_writes, if_pos rfl, hmade.pending]
      · rw [Disk.data_writes_self, hmade.data]
      · rw [← hmade.data i] at hpos ⊢
        exact byteAt_preallocateOps fun reserved hpre => hpos reserved (by rw [hpre])
    · rw [hmi] at hnone
      cases hnone

/-- While `run` removes records, nobody checkpoints. -/
theorem SessionMove.no_checkpoint_of_unlink (h : SessionMove p s s' e) (hlocks : s.Locks)
    {path : FilePath} (he : e = .unlink path) (a : Option Nat) : s.checkpointOf a = none := by
  have hcp : ∀ {st : FileState} {pc : CheckpointPc} {next : CheckpointNext} {e : Effect},
      CheckpointMove p.blake3 s.env.disk st pc next e → e ≠ .unlink path := by
    intro st pc next e hm
    cases hm <;> nofun
  cases h with
  | worker hw hmove =>
      cases hmove with
      | checkpoints hpc hcur hs hmove => exact absurd he (hcp hmove)
      | checkpointed hpc hcur hs hmove => exact absurd he (hcp hmove)
      | _ => cases he
  | @main main e hmove =>
      -- past the join every worker has ended, and `run` is at the removal
      have hidle : s.main.Joined → s.main.checkpoint? = none → s.checkpointOf a = none := by
        intro hjoined hnone
        cases a with
        | none => exact hnone
        | some i =>
            rw [Session.checkpointOf, Option.bind_eq_none_iff]
            intro w hw
            obtain ⟨r, hr⟩ := hlocks.ended hjoined w (List.mem_of_getElem? hw)
            exact Worker.checkpoint?_of_pc (by simp [hr])
      generalize hpc : s.main = pc at hmove hidle
      cases hmove with
      | saving error todo hs hmove => exact absurd he (hcp hmove)
      | saved error todo hs hmove => exact absurd he (hcp hmove)
      | shelving hs hmove => exact absurd he (hcp hmove)
      | shelved hs hmove => exact absurd he (hcp hmove)
      | aborts hs hab => rcases hab with rfl | rfl <;> cases he
      | drops todo hs hdrop => exact hidle trivial rfl
      | dropsTmp todo hs hdrop => exact hidle trivial rfl
      | _ => cases he
  | _ => cases he

/-- A snapshot is one the checkpoint had before the step, or the bitmap as it is. -/
theorem SessionMove.snapshot_cases (h : SessionMove p s s' e) {b : Option Nat} {id : UInt64}
    {cp : CheckpointPc} {snap : ChunkBitmap} (hcp : s'.checkpointOf b = some (id, cp))
    (hsnap : cp.snapshot? = some snap) :
    (∃ cp₀, s.checkpointOf b = some (id, cp₀) ∧ cp₀.snapshot? = some snap) ∨
      ∃ st, s.env.files.lookup id = some st ∧ snap = st.bitmap := by
  have hkeep : s'.checkpointOf b = s.checkpointOf b →
      ∃ cp₀, s.checkpointOf b = some (id, cp₀) ∧ cp₀.snapshot? = some snap :=
    fun hsame => ⟨cp, hsame ▸ hcp, hsnap⟩
  cases h.turn with
  | begins a id1 hplain hpc' hothers =>
      by_cases hab : b = a
      · subst hab
        rw [hpc'] at hcp
        cases hcp
        cases hsnap
      · exact Or.inl (hkeep (hothers b hab))
  | finishes a id1 pc r st hst hcmove hpc hpc' hothers =>
      by_cases hab : b = a
      · subst hab
        rw [hpc'] at hcp
        cases hcp
      · exact Or.inl (hkeep (hothers b hab))
  | goesOn a id1 pc pc' st hst hcmove hpc hpc' hothers =>
      by_cases hab : b = a
      swap
      · exact Or.inl (hkeep (hothers b hab))
      subst hab
      rw [hpc'] at hcp
      cases hcp
      cases hcmove with
      | snapshots hne => exact Or.inr ⟨st, hst, (Option.some.inj hsnap).symm⟩
      | _ => exact Or.inl ⟨_, hpc, hsnap⟩
  | elsewhere hplain hsame => exact Or.inl (hkeep (hsame b))
  | sinkWrite w c st done n hmem hpc hcur hst hfits heff hsame => exact Or.inl (hkeep (hsame b))
  | sinkSync id1 st hst hmain heff hsame => exact Or.inl (hkeep (hsame b))
  | removes id1 st hst path hpath hmain heff hsame => exact Or.inl (hkeep (hsame b))

/-- A worker writes as many bytes as the call takes. -/
theorem Worker.write_io {env : Env} {w : Worker} {c : Current} {st : FileState} {done n : Nat}
    {io : IoAct} {e : Effect} (hpc : w.pc = .write done) (hcur : w.current = some c)
    (hs : env.files.lookup c.fileId = some st)
    (hstep : w.step p env io = some ({ w with pc := .write (done + n) }, e)) : io = .write n := by
  simp only [step, hpc, hcur, hs] at hstep
  cases io with
  | next =>
      simp only [stepChunk] at hstep
      split at hstep <;> simp at hstep
  | fail => simp [stepChunk, stop] at hstep
  | write m =>
      simp only [stepChunk] at hstep
      split at hstep
      · have hpc' := congrArg (fun x => x.1.pc) (Option.some.inj hstep)
        have hmn : m = n := by simpa using hpc'
        rw [hmn]
      · cases hstep

/-- What a worker does that is in no checkpoint: nothing to the disk, or it writes a piece of its
    chunk. -/
theorem Worker.step_elsewhere {env : Env} {w w' : Worker} {io : IoAct}
    (hstep : w.step p env io = some (w', e)) (hpc : ∀ pc, w.pc ≠ .checkpoint pc) :
    e.Plain ∨ ∃ c st done n, io = .write n ∧ w.pc = .write done ∧ w.current = some c ∧
      env.files.lookup c.fileId = some st ∧
      e = .pwrite st.sink.ino (c.start + done) (slice w.buf done n) := by
  cases step_moves hstep with
  | writes hpc hcur hs hn hfits =>
      exact Or.inr ⟨_, _, _, _, write_io hpc hcur hs hstep, hpc, hcur, hs, rfl⟩
  | checkpoints hcp hcur hs hmove => exact absurd hcp (hpc _)
  | checkpointed hcp hcur hs hmove => exact absurd hcp (hpc _)
  | _ => exact Or.inl fun _ => rfl

/-- Who writes: a worker a piece of its chunk, or a checkpoint a piece of its record. -/
theorem Session.stepEffect_pwrite {a : SessionAct} {ino off : Nat} {bs : List UInt8}
    (h : s.stepEffect p a = some (s', .pwrite ino off bs)) :
    (∃ i n w c st done, a = .worker i (.write n) ∧ s.workers[i]? = some w ∧ w.pc = .write done ∧
      w.current = some c ∧ s.env.files.lookup c.fileId = some st ∧ ino = st.sink.ino ∧
      off = c.start + done ∧ bs = slice w.buf done n) ∨
    ∃ b id snap done, s.checkpointOf b = some (id, .writeTmp snap ino done) := by
  cases Session.stepEffect_cases h with
  | @worker i io w w' e hw hstep =>
      have hcp := checkpointOf_self hw
      cases Worker.step_moves hstep with
      | @checkpoints c st pc pc' _ hpc hcur hs hmove =>
          cases hmove with
          | writes snap tmp hn hfit =>
              refine Or.inr ⟨some i, c.fileId, snap, off, ?_⟩
              simp only [hcp, Worker.checkpoint?, hpc, hcur]
      | checkpointed hpc hcur hs hmove => cases hmove
      | @writes c st done n hpc hcur hs hn hfits =>
          obtain rfl := Worker.write_io hpc hcur hs hstep
          exact Or.inl ⟨i, n, w, c, st, done, rfl, hw, hpc, hcur, hs, rfl, rfl, rfl⟩
  | main hstep =>
      have hmove := mainStep_moves hstep
      have hcp : s.checkpointOf none = s.main.checkpoint? := rfl
      generalize s.main = pc at hmove hcp
      cases hmove with
      | @saving error id todo st pc pc' e hs hmove =>
          cases hmove with
          | writes snap tmp hn hfit => exact Or.inr ⟨none, id, snap, off, hcp⟩
      | saved error todo hs hmove => cases hmove
      | @shelving id st pc pc' e hs hmove =>
          cases hmove with
          | writes snap tmp hn hfit => exact Or.inr ⟨none, id, snap, off, hcp⟩
      | shelved hs hmove => cases hmove
      | aborts hs he => rcases he with he | he <;> cases he
      | drops todo hs he => rcases he with he | he <;> cases he
      | dropsTmp todo hs he => rcases he with he | he <;> cases he

/-! ## What a record says -/

/-- The record beside `dest` is intact, belongs to `key`, and sets bit `i`. -/
def recordedBit (blake3 : Blake3) (d : FileSystem) (dest : FilePath) (key : StateKey) (i : Nat) :
    Bool :=
  (d.contents (statePath dest)).any fun raw => (Resume.parseRecord blake3 key raw).any fun x =>
    (ChunkBitmap.fromBytes x.1 x.2).toOption.any fun b => b.has i

/-- What a record says for a key is the bits it was written with, if the key is its own. -/
theorem recordedBit_iff {d : FileSystem} {dest : FilePath} {key key' : StateKey} {b : ChunkBitmap}
    {i : Nat} (hwf : b.Wf) (hcount : b.count < 2 ^ 64)
    (hraw : d.contents (statePath dest) = some (Resume.record blake3 key' b)) :
    recordedBit blake3 d dest key i = true ↔ key' = key ∧ b.has i = true := by
  have hback : ChunkBitmap.fromBytes b.bits b.count = .ok b := hwf.fromBytes_asBytes
  rw [recordedBit, hraw, Option.any_some, Option.any_eq_true]
  constructor
  · rintro ⟨x, hx, hbit⟩
    obtain ⟨hkey, rfl⟩ := (Resume.parseRecord_record hcount x).1 hx
    rw [hback] at hbit
    exact ⟨hkey, by simpa [Except.toOption] using hbit⟩
  · rintro ⟨hkey, hbit⟩
    refine ⟨_, (Resume.parseRecord_record hcount _).2 ⟨hkey, rfl⟩, ?_⟩
    rw [hback]
    simpa [Except.toOption] using hbit

/-! ## Tidy sessions -/

/-- A session whose destinations are apart from its records and temporary files, with what every
    step keeps of it. -/
structure Session.Tidy (blake3 : Blake3) (s : Session) : Prop where
  fits : s.Fits blake3
  wired : s.Wired
  locks : s.Locks
  sound : s.Sound
  apart : NamesApart s.env.files
  writing : ∀ a id pc st, s.checkpointOf a = some (id, pc) → s.env.files.lookup id = some st →
    pc.Writing blake3 s.env.disk st

namespace Session.Tidy

/-- The sink of a file is known under its destination only. -/
theorem node_ne (h : s.Tidy blake3) {id : UInt64} {st : FileState}
    (hst : s.env.files.lookup id = some st) (hq : q ≠ st.sink.path) :
    s.env.disk.node q ≠ some (.file st.sink.ino) :=
  fun hnode => hq (s.env.disk.node_inj _ _ _ hnode (h.wired.named id st hst))

/-- A session spares every name that is no destination, record or temporary file of its files. -/
theorem spares (h : s.Tidy p.blake3) (hmove : SessionMove p s s' e)
    (hq : ∀ id st, s.env.files.lookup id = some st →
      q ≠ st.sink.path ∧ q ≠ statePath st.sink.path ∧ q ≠ tmpPath st.sink.path) :
    e.Spares s.env.disk q := by
  have hrec : q ∉ e.recordPaths := by
    intro hmem
    obtain ⟨id, st, hst, hwhich⟩ := hmove.recordPaths hmem
    rcases hwhich with heq | heq
    · exact (hq id st hst).2.1 heq
    · exact (hq id st hst).2.2 heq
  cases hmove.turn with
  | elsewhere hp hcp => exact hp.spares hrec
  | begins a id hp hpc' hothers => exact hp.spares hrec
  | goesOn a id pc pc' st hst hcmove hpc hpc' hothers =>
      exact hcmove.spares (h.writing a id pc st hpc hst) (hq id st hst).2.1 (hq id st hst).2.2
  | finishes a id pc r st hst hcmove hpc hpc' hothers =>
      exact hcmove.spares (h.writing a id pc st hpc hst) (hq id st hst).2.1 (hq id st hst).2.2
  | sinkWrite w c st done n hmem hpc hcur hst hfits heff hcp =>
      rw [heff]
      exact Effect.spares_pwrite (h.node_ne hst (hq _ st hst).1)
  | sinkSync id st hst hmain heff hcp =>
      rw [heff]
      exact Effect.spares_fsync
  | removes id st hst path hpath hmain heff hcp =>
      rw [heff]
      refine Effect.spares_unlink ?_
      rcases hpath with rfl | rfl
      · exact (hq id st hst).2.1
      · exact (hq id st hst).2.2

/-- **What a step makes of the checkpoints in progress.** -/
theorem writing_step (h : s.Tidy p.blake3) (hmove : SessionMove p s s' e) (b : Option Nat)
    (id : UInt64) (cp : CheckpointPc) (st' : FileState) (hcp : s'.checkpointOf b = some (id, cp))
    (hst' : s'.env.files.lookup id = some st') : cp.Writing p.blake3 s'.env.disk st' := by
  rw [hmove.env_eq] at hst' ⊢
  obtain ⟨st, hst, -, hsame⟩ := Env.lookup_apply hst'
  rw [Env.apply_disk]
  -- a checkpoint that does not move, under an effect that spares its temporary file
  have hframe : s.checkpointOf b = some (id, cp) → e.Spares s.env.disk (tmpPath st.sink.path) →
      cp.Writing p.blake3 (e.onDisk s.env.disk) st' :=
    fun hold hspares => ((h.writing b id cp st hold hst).frame hspares).congr hsame
  -- a checkpoint of another file spares it
  have hother : ∀ a id0 pc next st0, s.checkpointOf a = some (id0, pc) →
      s.env.files.lookup id0 = some st0 → CheckpointMove p.blake3 s.env.disk st0 pc next e →
      a ≠ b → s'.checkpointOf b = s.checkpointOf b →
        cp.Writing p.blake3 (e.onDisk s.env.disk) st' := by
    intro a id0 pc next st0 hpc hst0 hcmove hab hsamecp
    have hold := hsamecp ▸ hcp
    have hid : id ≠ id0 := by
      rintro rfl
      exact hab (h.locks.exclusive hpc hold)
    have hname := h.sound.named id st hst
    have hname0 := h.sound.named id0 st0 hst0
    refine hframe hold (hcmove.spares (h.writing a id0 pc st0 hpc hst0) ?_ fun htmp => hid ?_)
    · exact (statePath_ne_tmpPath st0.sink.path hname.2).symm
    · exact h.sound.paths id id0 st st0 hst hst0 (tmpPath_inj hname hname0 htmp)
  cases hmove.turn with
  | elsewhere hplain hsamecp =>
      rw [hplain]
      exact (h.writing b id cp st (hsamecp b ▸ hcp) hst).congr hsame
  | begins a id0 hplain hpc' hothers =>
      by_cases hab : b = a
      · subst hab
        rw [hpc'] at hcp
        cases hcp
        trivial
      · rw [hplain]
        exact (h.writing b id cp st (hothers b hab ▸ hcp) hst).congr hsame
  | goesOn a id0 pc pc' st0 hst0 hcmove hpc hpc' hothers =>
      by_cases hab : b = a
      · subst hab
        rw [hpc'] at hcp
        cases hcp
        obtain rfl := Option.some.inj (hst.symm.trans hst0)
        exact (hcmove.writing (h.writing b id pc st hpc hst)).congr hsame
      · exact hother a id0 pc _ st0 hpc hst0 hcmove (Ne.symm hab) (hothers b hab)
  | finishes a id0 pc r st0 hst0 hcmove hpc hpc' hothers =>
      by_cases hab : b = a
      · subst hab
        rw [hpc'] at hcp
        cases hcp
      · exact hother a id0 pc _ st0 hpc hst0 hcmove (Ne.symm hab) (hothers b hab)
  | sinkWrite w c st0 done n hmem hpc hcur hst0 hfits heff hsamecp =>
      refine hframe (hsamecp b ▸ hcp) ?_
      rw [heff]
      exact Effect.spares_pwrite (h.node_ne hst0 (h.apart id _ st st0 hst hst0).2.symm)
  | sinkSync id0 st0 hst0 hmain heff hsamecp =>
      refine hframe (hsamecp b ▸ hcp) ?_
      rw [heff]
      exact Effect.spares_fsync
  | removes id0 st0 hst0 path hpath hmain heff hsamecp =>
      have hnone := hmove.no_checkpoint_of_unlink h.locks heff b
      rw [← hsamecp b, hcp] at hnone
      cases hnone

/-- Only pieces of payloads reach a sink. -/
theorem lawful (h : s.Tidy p.blake3) (hmove : SessionMove p s s' e) {id : UInt64} {st : FileState}
    (hst : s.env.files.lookup id = some st) :
    ∀ op ∈ e.ops s.env.disk st.sink.ino, Lawful p.blake3 st.layout st.chunkHashes op := fun op hop =>
  (h.wired.chunkWrites hmove h.fits (h.apart.offDestinations hmove) hst op hop).lawful

/-- A step does nothing to a sink, or it is a worker's write of a piece of its chunk. -/
theorem sink_write (h : s.Tidy p.blake3) {a : SessionAct} (heff : s.stepEffect p a = some (s', e))
    {id : UInt64} {st : FileState} (hst : s.env.files.lookup id = some st) :
    e.ops s.env.disk st.sink.ino = [] ∨
    ∃ i n w c done, a = .worker i (.write n) ∧ s.workers[i]? = some w ∧ w.pc = .write done ∧
      w.current = some c ∧ s.env.files.lookup c.fileId = some st ∧
      e.ops s.env.disk st.sink.ino = [.pwrite (c.start + done) (slice w.buf done n)] := by
  have hmove := Session.stepEffect_moves heff
  cases e with
  | pwrite ino off bs =>
      by_cases hino : ino = st.sink.ino
      swap
      · exact Or.inl (by simp [Effect.ops, hino])
      rcases Session.stepEffect_pwrite heff with
        ⟨i, n, w, c, st', done, ha, hw, hpc, hcur, hst', hino', rfl, rfl⟩ |
        ⟨b, id', snap, done, hcp⟩
      · obtain rfl := h.wired.distinct _ _ _ _ hst hst' (hino.symm.trans hino')
        obtain rfl := Option.some.inj (hst.symm.trans hst')
        exact Or.inr ⟨i, n, w, c, done, ha, hw, hpc, hcur, hst, by simp [Effect.ops, hino]⟩
      · -- a checkpoint's handle is no sink's
        exact absurd hino (h.wired.handles b id' _ ino id st hcp rfl hst)
  | createFile path =>
      refine Or.inl ?_
      simp only [Effect.ops]
      rw [if_neg]
      refine h.node_ne hst fun hpath => ?_
      exact h.apart.offDestinations hmove path (by simp [Effect.recordPaths]) id st hst hpath
  | _ => exact Or.inl rfl

/-- **Every step keeps a session tidy.** -/
theorem step (h : s.Tidy p.blake3) (hmove : SessionMove p s s' e) : s'.Tidy p.blake3 where
  fits := hmove.fits h.fits
  wired := h.wired.step hmove (h.apart.offDestinations hmove)
  locks := hmove.locks h.locks
  sound := h.sound.step hmove
  apart := by
    intro id id' st st' hst hst'
    rw [hmove.env_eq] at hst hst'
    obtain ⟨t, ht, -, hsame⟩ := Env.lookup_apply hst
    obtain ⟨t', ht', -, hsame'⟩ := Env.lookup_apply hst'
    rw [hsame.sink, hsame'.sink]
    exact h.apart id id' t t' ht ht'
  writing := h.writing_step hmove

/-- **What a step does to the record beside `q`**: nothing; or it ends a checkpoint of `q`, whose
    record is then in place and synced; or it removes the record. -/
theorem record_cases (h : s.Tidy p.blake3) (hmove : SessionMove p s s' e) (hq : Named q)
    (hoff : ∀ id st, s.env.files.lookup id = some st → statePath q ≠ st.sink.path) :
    Untouched s.env.disk s'.env.disk (statePath q) ∨
    (∃ a id st snap tmp, s.env.files.lookup id = some st ∧ st.sink.path = q ∧
      s.checkpointOf a = some (id, .renameTmp snap tmp) ∧
      s'.env.disk.node (statePath q) = some (.file tmp) ∧
      s'.env.disk.data tmp = Resume.record p.blake3 st.key snap ∧
      s'.env.disk.pending tmp = [] ∧ ∃ src dst, e = .rename src dst) ∨
    s'.env.disk.contents (statePath q) = none := by
  have hdisk : s'.env.disk = e.onDisk s.env.disk := by rw [hmove.env_eq, Env.apply_disk]
  have htmp : ∀ id st, s.env.files.lookup id = some st → statePath q ≠ tmpPath st.sink.path :=
    fun id st hst => statePath_ne_tmpPath q (h.sound.named id st hst).2
  have hstate : ∀ id st, s.env.files.lookup id = some st → st.sink.path ≠ q →
      statePath q ≠ statePath st.sink.path :=
    fun id st hst hne heq => hne (statePath_inj hq.1 (h.sound.named id st hst).1 heq).symm
  rw [hdisk]
  cases hmove.turn with
  | elsewhere hplain hcp => exact Or.inl (hplain.untouched _)
  | begins a id hplain hpc' hothers => exact Or.inl (hplain.untouched _)
  | goesOn a id pc pc' st hst hcmove hpc hpc' hothers =>
      exact Or.inl (hcmove.spares_of_goOn (h.writing a id pc st hpc hst) (htmp id st hst)).untouched
  | finishes a id pc r st hst hcmove hpc hpc' hothers =>
      have hwriting := h.writing a id pc st hpc hst
      by_cases hpath : st.sink.path = q
      swap
      · exact Or.inl (hcmove.spares hwriting (hstate id st hst hpath) (htmp id st hst)).untouched
      subst hpath
      cases r with
      | error err =>
          cases hcmove
          exact Or.inl (plain_quiet.untouched _)
      | ok u =>
          rcases hcmove.recorded hq hwriting with ⟨-, -, rfl⟩ | ⟨snap, tmp, rfl, hnode, hdata, hnil⟩
          · exact Or.inl (plain_quiet.untouched _)
          · refine Or.inr (Or.inl ⟨a, id, st, snap, tmp, hst, rfl, hpc, hnode, hdata, hnil, ?_⟩)
            cases hcmove
            exact ⟨_, _, rfl⟩
  | sinkWrite w c st done n hmem hpc hcur hst hfits heff hcp =>
      rw [heff]
      exact Or.inl (Effect.spares_pwrite (h.node_ne hst (hoff _ st hst))).untouched
  | sinkSync id st hst hmain heff hcp =>
      rw [heff]
      exact Or.inl Effect.spares_fsync.untouched
  | removes id st hst path hpath hmain heff hcp =>
      rw [heff]
      by_cases heq : statePath q = path
      · subst heq
        exact Or.inr (Or.inr (Disk.contents_remove _ _))
      · exact Or.inl (Effect.spares_unlink heq).untouched

end Session.Tidy

/-! ## Going over an offer -/

/-- The disk an offer leaves. -/
def leftBy : Except Refused OfferState → FileSystem
  | .ok st => st.disk
  | .error r => r.disk

section Offer

variable (blake3) (config : Config) (outputDir : FilePath) (chunkSize : UInt32) (st : OfferState)
  (x : FileEntry × EntryIo)

theorem leftBy_openEntry (c : Checked) :
    leftBy (openEntry blake3 config chunkSize st x.1 c x.2)
      = (SinkFile.create st.disk c.dest x.1.sizeBytes chunkSize x.2.sink).1 := by
  unfold openEntry
  simp only
  split
  · next hcreate => rw [hcreate, leftBy]
  · next hcreate =>
      rw [hcreate]
      split <;> rfl

/-- An entry leaves the disk alone, or its destination is created or resized. -/
theorem leftBy_offerEntry :
    leftBy (offerEntry blake3 config outputDir chunkSize st x) = st.disk ∨
      ∃ c, checkEntry blake3 config outputDir chunkSize st.seenPaths x.1 = .ok c ∧
        leftBy (offerEntry blake3 config outputDir chunkSize st x)
          = (SinkFile.create st.disk c.dest x.1.sizeBytes chunkSize x.2.sink).1 := by
  unfold offerEntry
  cases hc : checkEntry blake3 config outputDir chunkSize st.seenPaths x.1 with
  | error r => exact Or.inl rfl
  | ok c => exact Or.inr ⟨c, rfl, leftBy_openEntry blake3 config chunkSize st x c⟩

variable {blake3 config outputDir chunkSize st x}

theorem Checked.For.dest_entry {entry : FileEntry} {c : Checked}
    (h : c.For blake3 config outputDir chunkSize entry) : entry.dest outputDir = some c.dest := by
  rw [FileEntry.dest, h.sanitized, h.dest_eq]

end Offer

/-- The names of an offer of one file are apart. -/
theorem entriesApart_singleton (outputDir : FilePath) (x : FileEntry × EntryIo) :
    EntriesApart outputDir [x] := by
  intro y hy z hz d hd d' hd'
  rw [List.mem_singleton] at hy hz
  subst hy hz
  obtain rfl := Option.some.inj (hd.symm.trans hd')
  have hname : Named d := by
    rw [FileEntry.dest] at hd
    split at hd
    · next safePath hsan =>
        rw [← Option.some.inj hd]
        exact named_dest outputDir hsan
    · cases hd
  exact ⟨(statePath_ne_self hname.1).symm, (tmpPath_ne_self hname).symm⟩

/-- A session over an accepted offer whose names are apart starts tidy. -/
theorem Accepted.tidy {outputDir : FilePath} {chunkSize : UInt32}
    {entries : List (FileEntry × EntryIo)} {st : OfferState}
    (h : Accepted blake3 outputDir chunkSize entries st) (hapart : EntriesApart outputDir entries)
    (streamCount : UInt32) : (Session.start st streamCount).Tidy blake3 where
  fits := fun w hw => nomatch hw
  wired := h.wired streamCount
  locks := Session.locks_start st streamCount
  sound := h.sound streamCount
  apart := h.namesApart hapart
  writing := by
    intro a id pc fs hcp
    rw [Session.checkpointOf_start] at hcp
    cases hcp

end AetherLink
