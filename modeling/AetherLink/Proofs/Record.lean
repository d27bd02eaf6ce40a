import AetherLink.Proofs.Names

set_option autoImplicit false

/-! # Records under way

What a checkpoint has on the disk at each of its places (`CheckpointPc.Writing`): from the moment it
has created the temporary file, that name holds what it has written of the record, and once it has
synced it, no write of it is pending. The rename then puts the whole record in place. Effects that
keep off the temporary file do not disturb it. -/

namespace AetherLink

open Bytes Storage

variable {blake3 : Blake3} {d d' : FileSystem} {st : FileState} {e : Effect} {pc pc' : CheckpointPc}

/-! ## Names an effect leaves alone -/

/-- The effect neither rebinds `q` nor writes to the file it names. -/
def Effect.Spares (d : FileSystem) (q : FilePath) (e : Effect) : Prop :=
  q ∉ e.recordPaths ∧ ∀ i, d.node q = some (.file i) → e.ops d i = []

theorem Effect.Spares.contents {q : FilePath} (h : e.Spares d q) :
    (e.onDisk d).contents q = d.contents q := by
  unfold Disk.contents
  rw [Effect.node_onDisk h.1]
  cases hq : d.node q with
  | none => rfl
  | some n =>
      cases n with
      | dir => rfl
      | file i => simp only [(e.onInode (d.node_lt q i hq)).data_eq (h.2 i hq)]

theorem Effect.Spares.pending {q : FilePath} {i : Nat} (h : e.Spares d q)
    (hq : d.node q = some (.file i)) (hnil : d.pending i = []) : (e.onDisk d).pending i = [] := by
  rw [(e.onInode (d.node_lt q i hq)).pending]
  split
  · rfl
  · rw [h.2 i hq, hnil, List.append_nil]

theorem Effect.Plain.spares (h : e.Plain) {q : FilePath} (hq : q ∉ e.recordPaths) :
    e.Spares d q :=
  ⟨hq, fun i hi => h.ops_eq_nil (d.node_lt q i hi)⟩

/-- Writing to one file spares the names of the others. -/
theorem Effect.spares_pwrite {q : FilePath} {i off : Nat} {bs : List UInt8}
    (h : d.node q ≠ some (.file i)) : (Effect.pwrite i off bs).Spares d q := by
  refine ⟨by simp [recordPaths], fun j hj => ?_⟩
  simp only [ops]
  rw [if_neg]
  rintro rfl
  exact h hj

theorem Effect.spares_fsync {q : FilePath} {i : Nat} : (Effect.fsync i).Spares d q :=
  ⟨by simp [recordPaths], fun _ _ => rfl⟩

theorem Effect.spares_createFile {p q : FilePath} (h : q ≠ p) :
    (Effect.createFile p).Spares d q := by
  refine ⟨by simpa [recordPaths] using h, fun j hj => ?_⟩
  simp only [ops]
  rw [if_neg]
  exact fun hp => h (d.node_inj _ _ _ hj hp)

theorem Effect.spares_rename {p p' q : FilePath} (h : q ≠ p) (h' : q ≠ p') :
    (Effect.rename p p').Spares d q :=
  ⟨by simp [recordPaths, h, h'], fun _ _ => rfl⟩

theorem Effect.spares_unlink {p q : FilePath} (h : q ≠ p) : (Effect.unlink p).Spares d q :=
  ⟨by simpa [recordPaths] using h, fun _ _ => rfl⟩

/-! ## A checkpoint's own file -/

/-- What the checkpoint has snapshotted. -/
def CheckpointPc.snapshot? : CheckpointPc → Option ChunkBitmap
  | .snapshot => none
  | .syncData snap => some snap
  | .createTmp snap => some snap
  | .writeTmp snap _ _ => some snap
  | .syncTmp snap _ => some snap
  | .renameTmp snap _ => some snap

/-- What the checkpoint of `st` has on the disk. -/
def CheckpointPc.Writing (blake3 : Blake3) (d : FileSystem) (st : FileState) : CheckpointPc → Prop
  | .writeTmp snap tmp done => d.node (tmpPath st.sink.path) = some (.file tmp) ∧
      d.data tmp = (Resume.record blake3 st.key snap).take done
  | .syncTmp snap tmp => d.node (tmpPath st.sink.path) = some (.file tmp) ∧
      d.data tmp = Resume.record blake3 st.key snap
  | .renameTmp snap tmp => d.node (tmpPath st.sink.path) = some (.file tmp) ∧
      d.data tmp = Resume.record blake3 st.key snap ∧ d.pending tmp = []
  | _ => True

theorem CheckpointPc.Writing.congr {st' : FileState} (h : pc.Writing blake3 d st)
    (hsame : st.SameFile st') : pc.Writing blake3 d st' := by
  cases pc with
  | writeTmp snap tmp done =>
      simp only [Writing, hsame.sink, hsame.key] at h ⊢
      exact h
  | syncTmp snap tmp =>
      simp only [Writing, hsame.sink, hsame.key] at h ⊢
      exact h
  | renameTmp snap tmp =>
      simp only [Writing, hsame.sink, hsame.key] at h ⊢
      exact h
  | _ => trivial

/-- An effect that spares the temporary file disturbs no checkpoint. -/
theorem CheckpointPc.Writing.frame (h : pc.Writing blake3 d st)
    (hspares : e.Spares d (tmpPath st.sink.path)) : pc.Writing blake3 (e.onDisk d) st := by
  have hnode : ∀ i, d.node (tmpPath st.sink.path) = some (.file i) →
      (e.onDisk d).node (tmpPath st.sink.path) = some (.file i) := by
    intro i hi
    rw [Effect.node_onDisk hspares.1, hi]
  have hdata : ∀ i, d.node (tmpPath st.sink.path) = some (.file i) →
      (e.onDisk d).data i = d.data i :=
    fun i hi => (e.onInode (d.node_lt _ i hi)).data_eq (hspares.2 i hi)
  cases pc with
  | writeTmp snap tmp done => exact ⟨hnode _ h.1, (hdata _ h.1).trans h.2⟩
  | syncTmp snap tmp => exact ⟨hnode _ h.1, (hdata _ h.1).trans h.2⟩
  | renameTmp snap tmp =>
      exact ⟨hnode _ h.1, (hdata _ h.1).trans h.2.1, hspares.pending h.1 h.2.2⟩
  | _ => trivial

/-- A checkpoint takes its snapshot once. -/
theorem CheckpointMove.snapshot?_eq (h : CheckpointMove blake3 d st pc (.goOn pc') e) :
    pc'.snapshot? = some (pc.snapshot?.getD st.bitmap) := by
  cases h <;> rfl

/-- **A checkpoint's own step.** -/
theorem CheckpointMove.writing (h : CheckpointMove blake3 d st pc (.goOn pc') e)
    (hw : pc.Writing blake3 d st) : pc'.Writing blake3 (e.onDisk d) st := by
  cases h with
  | snapshots h => trivial
  | syncs snap => trivial
  | @creates snap d' tmp h =>
      simp only [Effect.onDisk, h, Option.map_some, Option.getD_some]
      refine ⟨Disk.node_of_create h, ?_⟩
      rw [Disk.data_of_create h, List.take_zero]
  | writes snap tmp hn h =>
      obtain ⟨hnode, hdata⟩ := hw
      refine ⟨hnode, ?_⟩
      simp only [Effect.onDisk, Disk.data_write_self, hdata, DataOp.apply]
      exact take_pwrite_slice h
  | written snap tmp h =>
      obtain ⟨hnode, hdata⟩ := hw
      refine ⟨hnode, ?_⟩
      rw [h, List.take_length] at hdata
      exact hdata
  | syncsTmp snap tmp =>
      obtain ⟨hnode, hdata⟩ := hw
      refine ⟨hnode, hdata, ?_⟩
      simp only [Effect.onDisk, Disk.pending_sync, if_true]

/-- What a checkpoint that succeeds leaves: the record of its snapshot, synced, or nothing at all
    where no bit is set. -/
theorem CheckpointMove.recorded (h : CheckpointMove blake3 d st pc (.done (.ok ())) e)
    (hname : Named st.sink.path) (hw : pc.Writing blake3 d st) :
    (pc = .snapshot ∧ st.bitmap.setCount = 0 ∧ e = .quiet) ∨
      ∃ snap tmp, pc = .renameTmp snap tmp ∧
        (e.onDisk d).node (statePath st.sink.path) = some (.file tmp) ∧
        (e.onDisk d).data tmp = Resume.record blake3 st.key snap ∧
        (e.onDisk d).pending tmp = [] := by
  cases h with
  | nothingSet h => exact Or.inl ⟨rfl, h, rfl⟩
  | @renames snap tmp d' h =>
      obtain ⟨hnode, hdata, hpending⟩ := hw
      obtain ⟨-, hbase, hlog, hsynced⟩ := Disk.rename_data h
      have hne := (statePath_ne_tmpPath st.sink.path hname.2).symm
      refine Or.inr ⟨snap, tmp, rfl, ?_, ?_, ?_⟩
      · simp only [Effect.onDisk, h, Option.getD_some, Disk.node_of_rename h hne, if_true, hnode]
      · simp only [Effect.onDisk, h, Option.getD_some, Disk.data_of_rename h, hdata]
      · simp only [Effect.onDisk, h, Option.getD_some]
        rw [← hpending]
        simp only [Disk.pending, hlog, hsynced]

/-- Checkpoints change no file state. -/
theorem CheckpointMove.onFile {next : CheckpointNext} (h : CheckpointMove blake3 d st pc next e)
    (id : UInt64) (st' : FileState) : e.onFile id st' = st' := by
  cases h <;> rfl

/-- A checkpoint spares the records of other files. -/
theorem CheckpointMove.spares_statePath {next : CheckpointNext}
    (h : CheckpointMove blake3 d st pc next e) (hname : Named st.sink.path)
    (hw : pc.Writing blake3 d st) {q : FilePath} (hq : Named q) (hne : q ≠ st.sink.path) :
    e.Spares d (statePath q) := by
  have htmp : statePath q ≠ tmpPath st.sink.path := statePath_ne_tmpPath q hname.2
  cases h with
  | creates snap h => exact Effect.spares_createFile htmp
  | writes snap tmp hn h =>
      refine Effect.spares_pwrite fun hnode => htmp ?_
      exact d.node_inj _ _ _ hnode hw.1
  | syncs snap => exact Effect.spares_fsync
  | syncsTmp snap tmp => exact Effect.spares_fsync
  | renames snap tmp h =>
      exact Effect.spares_rename htmp fun heq => hne (statePath_inj hq.1 hname.1 heq)
  | _ => exact plain_quiet.spares List.not_mem_nil

end AetherLink
