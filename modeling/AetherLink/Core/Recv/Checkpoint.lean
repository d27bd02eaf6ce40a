import AetherLink.Core.Recv.Offer

set_option autoImplicit false

/-! # Shared state of a receive session, and checkpointing

The stream workers and `run` itself share the disk, the file states and the progress counter
(`Env`). Each step of any of them does at most one thing to what is shared, an `Effect`; whatever
holds between two steps is therefore a matter of one effect at a time.

`checkpoint` is the part both have in common: snapshot the bitmap, flush the file, write the record
to the temporary file, sync it, rename it. -/

namespace AetherLink

open Storage

/-! ## Shared state -/

/-- A call of the progress sink. -/
inductive ProgressEvent where
  | progress (done : UInt64) (total : UInt64)
  | fileCompleted (fileId : UInt64) (path : FilePath)
  deriving DecidableEq

/-- What the parts of a session share. -/
structure Env where
  disk : FileSystem
  files : Files
  /-- `bytes_written`. -/
  counter : UInt64
  /-- Calls of the progress sink, first to last. -/
  events : List ProgressEvent
  /-- Control messages written after `Accept`, first to last. -/
  sent : List Body

/-- What one step does to the shared state. -/
inductive Effect where
  | quiet
  | pwrite (ino : Nat) (off : Nat) (bs : List UInt8)
  | fsync (ino : Nat)
  | createFile (path : FilePath)
  | rename (src dst : FilePath)
  | unlink (path : FilePath)
  | setBit (id : UInt64) (index : Nat)
  | setSince (id : UInt64) (bytes : UInt64)
  | setLock (id : UInt64) (held : Bool)
  | count (bytes : UInt64)
  | notify (event : ProgressEvent)
  | send (body : Body)
  deriving DecidableEq

namespace Effect

def onDisk (d : FileSystem) : Effect → FileSystem
  | .pwrite ino off bs => d.write ino (.pwrite off bs)
  | .fsync ino => d.sync ino
  | .createFile path => ((d.create path).map Prod.fst).getD d
  | .rename src dst => (d.rename src dst).getD d
  | .unlink path => (d.remove path).getD d
  | _ => d

/-- What the effect does to the file state under `id`. -/
def onFile (id : UInt64) (s : FileState) : Effect → FileState
  | .setBit id' index =>
      if id = id' then
        match s.bitmap.set index with
        | .ok bitmap => { s with bitmap := bitmap }
        | .error _ => s
      else s
  | .setSince id' bytes => if id = id' then { s with sinceCheckpoint := bytes } else s
  | .setLock id' held => if id = id' then { s with checkpointing := held } else s
  | _ => s

/-- The file state the effect is about. -/
def target : Effect → Option UInt64
  | .setBit id _ => some id
  | .setSince id _ => some id
  | .setLock id _ => some id
  | _ => none

def onFiles (files : Files) (e : Effect) : Files :=
  match e.target with
  | none => files
  | some id =>
      match files.lookup id with
      | none => files
      | some s => files.insert id (e.onFile id s)

end Effect

/-- The shared state after one effect. -/
def Env.apply (env : Env) (e : Effect) : Env :=
  { disk := e.onDisk env.disk
    files := e.onFiles env.files
    counter := match e with
      | .count bytes => env.counter + bytes
      | _ => env.counter
    events := match e with
      | .notify event => env.events ++ [event]
      | _ => env.events
    sent := match e with
      | .send body => env.sent ++ [body]
      | _ => env.sent }

@[simp] theorem Env.apply_disk (env : Env) (e : Effect) :
    (env.apply e).disk = e.onDisk env.disk := rfl

@[simp] theorem Env.apply_files (env : Env) (e : Effect) :
    (env.apply e).files = e.onFiles env.files := rfl

theorem Effect.onFile_of_target_ne {e : Effect} {id : UInt64} (s : FileState)
    (h : e.target ≠ some id) : e.onFile id s = s := by
  cases e with
  | setBit id' index =>
      have hne : ¬id = id' := fun heq => h (by rw [heq]; rfl)
      simp only [onFile, if_neg hne]
  | setSince id' bytes =>
      have hne : ¬id = id' := fun heq => h (by rw [heq]; rfl)
      simp only [onFile, if_neg hne]
  | setLock id' held =>
      have hne : ¬id = id' := fun heq => h (by rw [heq]; rfl)
      simp only [onFile, if_neg hne]
  | _ => rfl

/-- **The file states after an effect**, id by id. -/
theorem Effect.lookup_onFiles (e : Effect) (files : Files) (id : UInt64) :
    (e.onFiles files).lookup id = (files.lookup id).map fun s => e.onFile id s := by
  have hkeep : e.target ≠ some id → (files.lookup id).map (fun s => e.onFile id s)
      = files.lookup id := by
    intro ht
    simp only [onFile_of_target_ne _ ht, Option.map_id']
  unfold onFiles
  split
  · next ht => rw [hkeep (by rw [ht]; nofun)]
  · next id' ht =>
      by_cases hid : id = id'
      · subst hid
        split
        · next hl => rw [hl, Option.map_none]
        · next s hl => rw [AList.lookup_insert, hl, Option.map_some]
      · rw [hkeep (by rw [ht]; exact fun h => hid (Option.some.inj h).symm)]
        split
        · rfl
        · exact AList.lookup_insert_ne hid

/-- What never changes of a file state. -/
structure FileState.SameFile (s s' : FileState) : Prop where
  sink : s'.sink = s.sink
  layout : s'.layout = s.layout
  chunkHashes : s'.chunkHashes = s.chunkHashes
  key : s'.key = s.key

theorem FileState.SameFile.refl (s : FileState) : s.SameFile s :=
  ⟨rfl, rfl, rfl, rfl⟩

theorem FileState.SameFile.trans {s t u : FileState} (h : s.SameFile t) (h' : t.SameFile u) :
    s.SameFile u :=
  ⟨h'.sink.trans h.sink, h'.layout.trans h.layout, h'.chunkHashes.trans h.chunkHashes,
    h'.key.trans h.key⟩

theorem FileState.SameFile.symm {s t : FileState} (h : s.SameFile t) : t.SameFile s :=
  ⟨h.sink.symm, h.layout.symm, h.chunkHashes.symm, h.key.symm⟩

theorem Effect.sameFile_onFile (e : Effect) (id : UInt64) (s : FileState) :
    s.SameFile (e.onFile id s) := by
  by_cases ht : e.target = some id
  · cases e with
    | setBit id' index =>
        obtain rfl := Option.some.inj ht
        simp only [onFile, if_true]
        split <;> exact ⟨rfl, rfl, rfl, rfl⟩
    | setSince id' bytes =>
        obtain rfl := Option.some.inj ht
        simp only [onFile, if_true]
        exact ⟨rfl, rfl, rfl, rfl⟩
    | setLock id' held =>
        obtain rfl := Option.some.inj ht
        simp only [onFile, if_true]
        exact ⟨rfl, rfl, rfl, rfl⟩
    | _ => exact FileState.SameFile.refl s
  · rw [onFile_of_target_ne s ht]
    exact FileState.SameFile.refl s

/-- A file state after an effect comes from one before it. -/
theorem Env.lookup_apply {env : Env} {e : Effect} {id : UInt64} {s' : FileState}
    (h : (env.apply e).files.lookup id = some s') :
    ∃ s, env.files.lookup id = some s ∧ s' = e.onFile id s ∧ s.SameFile s' := by
  rw [Env.apply_files, Effect.lookup_onFiles, Option.map_eq_some_iff] at h
  obtain ⟨s, hs, rfl⟩ := h
  exact ⟨s, hs, rfl, e.sameFile_onFile id s⟩

theorem Env.lookup_apply_of {env : Env} {e : Effect} {id : UInt64} {s : FileState}
    (h : env.files.lookup id = some s) : (env.apply e).files.lookup id = some (e.onFile id s) := by
  rw [Env.apply_files, Effect.lookup_onFiles, h, Option.map_some]

/-! ## Checkpoints -/

/-- How a call the next step makes goes: it does its work, it writes some of the bytes it was given,
    or it fails. -/
inductive IoAct where
  | next
  | write (n : Nat)
  | fail
  deriving DecidableEq, Repr

/-- The constants of a session. -/
structure Params where
  blake3 : Blake3
  totalBytes : UInt64
  checkpointBytes : UInt64

/-- A place inside `checkpoint` and `resume::persist`. -/
inductive CheckpointPc where
  | snapshot
  | syncData (snapshot : ChunkBitmap)
  | createTmp (snapshot : ChunkBitmap)
  | writeTmp (snapshot : ChunkBitmap) (tmp : Nat) (done : Nat)
  | syncTmp (snapshot : ChunkBitmap) (tmp : Nat)
  | renameTmp (snapshot : ChunkBitmap) (tmp : Nat)
  deriving DecidableEq

/-- Where a checkpoint is after a step. -/
inductive CheckpointNext where
  | goOn (pc : CheckpointPc)
  | done (result : Except Error Unit)

/-- One step of `checkpoint` on the file state `s`. -/
def checkpointStep (blake3 : Blake3) (disk : FileSystem) (s : FileState) :
    CheckpointPc → IoAct → Option (CheckpointNext × Effect)
  | .snapshot, .next =>
      if s.bitmap.setCount = 0 then some (.done (.ok ()), .quiet)
      else some (.goOn (.syncData s.bitmap), .quiet)
  | .syncData snapshot, .next => some (.goOn (.createTmp snapshot), .fsync s.sink.ino)
  | .syncData _, .fail =>
      some (.done (.error (.io ("syncing " ++ display s.sink.path))), .quiet)
  | .createTmp snapshot, .next =>
      match disk.create (tmpPath s.sink.path) with
      | none => none
      | some (_, tmp) =>
          some (.goOn (.writeTmp snapshot tmp 0), .createFile (tmpPath s.sink.path))
  | .createTmp _, .fail =>
      some (.done (.error (.io ("creating " ++ display (tmpPath s.sink.path)))), .quiet)
  | .writeTmp snapshot tmp done, .write n =>
      let buf := Resume.record blake3 s.key snapshot
      if 0 < n ∧ done + n ≤ buf.length then
        some (.goOn (.writeTmp snapshot tmp (done + n)),
          .pwrite tmp done (Bytes.slice buf done n))
      else none
  | .writeTmp snapshot tmp done, .next =>
      if done = (Resume.record blake3 s.key snapshot).length then
        some (.goOn (.syncTmp snapshot tmp), .quiet)
      else none
  | .writeTmp _ _ _, .fail =>
      some (.done (.error (.io ("writing " ++ display (tmpPath s.sink.path)))), .quiet)
  | .syncTmp snapshot tmp, .next => some (.goOn (.renameTmp snapshot tmp), .fsync tmp)
  | .syncTmp _ _, .fail =>
      some (.done (.error (.io ("syncing " ++ display (tmpPath s.sink.path)))), .quiet)
  | .renameTmp _ _, .next =>
      match disk.rename (tmpPath s.sink.path) (statePath s.sink.path) with
      | none => none
      | some _ =>
          some (.done (.ok ()), .rename (tmpPath s.sink.path) (statePath s.sink.path))
  | .renameTmp _ _, .fail =>
      some (.done (.error (.io ("renaming into " ++ display (statePath s.sink.path)))), .quiet)
  | _, _ => none

/-- Everything a checkpoint step can be. -/
inductive CheckpointMove (blake3 : Blake3) (disk : FileSystem) (s : FileState) :
    CheckpointPc → CheckpointNext → Effect → Prop
  | nothingSet (h : s.bitmap.setCount = 0) :
      CheckpointMove blake3 disk s .snapshot (.done (.ok ())) .quiet
  | snapshots (h : s.bitmap.setCount ≠ 0) :
      CheckpointMove blake3 disk s .snapshot (.goOn (.syncData s.bitmap)) .quiet
  | syncs (snapshot : ChunkBitmap) :
      CheckpointMove blake3 disk s (.syncData snapshot) (.goOn (.createTmp snapshot))
        (.fsync s.sink.ino)
  | creates (snapshot : ChunkBitmap) {disk' : FileSystem} {tmp : Nat}
      (h : disk.create (tmpPath s.sink.path) = some (disk', tmp)) :
      CheckpointMove blake3 disk s (.createTmp snapshot) (.goOn (.writeTmp snapshot tmp 0))
        (.createFile (tmpPath s.sink.path))
  | writes (snapshot : ChunkBitmap) (tmp : Nat) {done n : Nat} (hn : 0 < n)
      (h : done + n ≤ (Resume.record blake3 s.key snapshot).length) :
      CheckpointMove blake3 disk s (.writeTmp snapshot tmp done)
        (.goOn (.writeTmp snapshot tmp (done + n)))
        (.pwrite tmp done (Bytes.slice (Resume.record blake3 s.key snapshot) done n))
  | written (snapshot : ChunkBitmap) (tmp : Nat) {done : Nat}
      (h : done = (Resume.record blake3 s.key snapshot).length) :
      CheckpointMove blake3 disk s (.writeTmp snapshot tmp done) (.goOn (.syncTmp snapshot tmp))
        .quiet
  | syncsTmp (snapshot : ChunkBitmap) (tmp : Nat) :
      CheckpointMove blake3 disk s (.syncTmp snapshot tmp) (.goOn (.renameTmp snapshot tmp))
        (.fsync tmp)
  | renames (snapshot : ChunkBitmap) (tmp : Nat) {disk' : FileSystem}
      (h : disk.rename (tmpPath s.sink.path) (statePath s.sink.path) = some disk') :
      CheckpointMove blake3 disk s (.renameTmp snapshot tmp) (.done (.ok ()))
        (.rename (tmpPath s.sink.path) (statePath s.sink.path))
  | fails (pc : CheckpointPc) (e : Error) :
      CheckpointMove blake3 disk s pc (.done (.error e)) .quiet

theorem checkpointStep_moves {blake3 : Blake3} {disk : FileSystem} {s : FileState}
    {pc : CheckpointPc} {io : IoAct} {next : CheckpointNext} {e : Effect}
    (h : checkpointStep blake3 disk s pc io = some (next, e)) :
    CheckpointMove blake3 disk s pc next e := by
  unfold checkpointStep at h
  split at h
  · split at h
    · next hz =>
        cases h
        exact .nothingSet hz
    · next hz =>
        cases h
        exact .snapshots hz
  · cases h
    exact .syncs _
  · cases h
    exact .fails _ _
  · split at h
    · cases h
    · next hc =>
        cases h
        exact .creates _ hc
  · cases h
    exact .fails _ _
  · simp only at h
    split at h
    · next hn =>
        cases h
        exact .writes _ _ hn.1 hn.2
    · cases h
  · split at h
    · next hd =>
        cases h
        exact .written _ _ hd
    · cases h
  · cases h
    exact .fails _ _
  · cases h
    exact .syncsTmp _ _
  · cases h
    exact .fails _ _
  · split at h
    · cases h
    · next hr =>
        cases h
        exact .renames _ _ hr
  · cases h
    exact .fails _ _
  · cases h

/-- A checkpoint whose calls do not fail does not fail. -/
theorem checkpointStep_result {blake3 : Blake3} {disk : FileSystem} {s : FileState}
    {pc : CheckpointPc} {io : IoAct} {r : Except Error Unit} {e : Effect}
    (h : checkpointStep blake3 disk s pc io = some (.done r, e)) (hio : io ≠ .fail) : r = .ok () := by
  cases io with
  | fail => exact absurd rfl hio
  | write n =>
      cases pc with
      | writeTmp snap tmp done =>
          simp only [checkpointStep] at h
          split at h <;> cases h
      | _ => cases h
  | next =>
      cases pc with
      | snapshot =>
          simp only [checkpointStep] at h
          split at h
          · cases h
            rfl
          · cases h
      | syncData snap => cases h
      | createTmp snap =>
          simp only [checkpointStep] at h
          split at h <;> cases h
      | writeTmp snap tmp done =>
          simp only [checkpointStep] at h
          split at h <;> cases h
      | syncTmp snap tmp => cases h
      | renameTmp snap tmp =>
          simp only [checkpointStep] at h
          split at h
          · cases h
          · cases h
            rfl

end AetherLink
