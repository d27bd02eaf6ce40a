import AetherLink.Proofs.Accepted

set_option autoImplicit false

/-! # What `Complete` means

The completeness loop goes over the file map. When `run` returns `Ok`, every worker has ended without
an error and every file of the map is complete and flushed (`Session.Swept`). The map has one file
per id, so this says something about every offered entry exactly if the ids are distinct. -/

namespace AetherLink

open Bytes Storage

/-! ## The completeness loop -/

/-- The files the completeness loop has not yet found complete and flushed. -/
def MainPc.unswept : MainPc → Option (List UInt64)
  | .checking todo => some todo
  | .syncing id todo => some (id :: todo)
  | .dropping _ todo => some todo
  | .droppingTmp _ todo => some todo
  | .completing => some []
  | .returned (.ok _) => some []
  | _ => none

/-- The bitmap is complete and no write of the file is waiting for an fsync. -/
def FileState.Landed (d : FileSystem) (st : FileState) : Prop :=
  st.bitmap.isComplete = true ∧ d.pending st.sink.ino = []

/-- What the completeness loop has established. -/
structure Session.Swept (s : Session) : Prop where
  ended : ∀ todo, s.main.unswept = some todo → ∀ w ∈ s.workers, w.pc = .ended (.ok ())
  landed : ∀ todo id st, s.main.unswept = some todo → s.env.files.lookup id = some st → id ∉ todo →
    st.Landed s.env.disk
  syncing : ∀ id todo st, s.main = .syncing id todo → s.env.files.lookup id = some st →
    st.bitmap.isComplete = true
  sent : ∀ n, .complete n ∈ s.env.sent → ∃ m, s.main = .returned (.ok m)

theorem firstError_none {workers : List Worker} (h : firstError workers = none)
    (hended : ∀ w ∈ workers, ∃ r, w.pc = .ended r) : ∀ w ∈ workers, w.pc = .ended (.ok ()) := by
  intro w hw
  have hnone := List.findSome?_eq_none_iff.1 h w hw
  obtain ⟨r, hr⟩ := hended w hw
  cases r with
  | ok u => exact hr
  | error e => simp [hr] at hnone

/-- What `run` does to the disk past the join, outside checkpoints: flush and remove. -/
def Effect.Sweeps (e : Effect) : Prop :=
  e = .quiet ∨ (∃ i, e = .fsync i) ∨ (∃ p, e = .unlink p) ∨ ∃ b, e = .send b

/-- Flushing and removing leave no write pending that was not. -/
theorem Effect.Sweeps.pending {e : Effect} (he : e.Sweeps) {d : FileSystem} {i : Nat}
    (h : d.pending i = []) : (e.onDisk d).pending i = [] := by
  rcases he with rfl | ⟨j, rfl⟩ | ⟨q, rfl⟩ | ⟨b, rfl⟩
  · exact h
  · simp only [onDisk, Disk.pending_sync]
    split
    · rfl
    · exact h
  · simp only [onDisk]
    cases hr : d.remove q with
    | none => exact h
    | some d' =>
        rw [Option.getD_some, Disk.remove_eq hr]
        exact h
  · exact h

theorem Effect.Sweeps.onFile {e : Effect} (he : e.Sweeps) (id : UInt64) (st : FileState) :
    e.onFile id st = st := by
  rcases he with rfl | ⟨j, rfl⟩ | ⟨q, rfl⟩ | ⟨b, rfl⟩ <;> rfl

theorem CheckpointMove.not_send {blake3 : Blake3} {disk : FileSystem} {s : FileState}
    {pc : CheckpointPc} {next : CheckpointNext} {e : Effect}
    (h : CheckpointMove blake3 disk s pc next e) (b : Body) : e ≠ .send b := by
  cases h <;> nofun

/-- Only a worker sets a bit. -/
theorem CheckpointMove.not_setBit {blake3 : Blake3} {disk : FileSystem} {s : FileState}
    {pc : CheckpointPc} {next : CheckpointNext} {e : Effect}
    (h : CheckpointMove blake3 disk s pc next e) (id : UInt64) (i : Nat) : e ≠ .setBit id i := by
  cases h <;> nofun

theorem MainMove.not_setBit {p : Params} {env : Env} {pc pc' : MainPc} {e : Effect}
    (h : MainMove p env pc pc' e) (id : UInt64) (i : Nat) : e ≠ .setBit id i := by
  cases h with
  | saving error todo hs hmove => exact hmove.not_setBit id i
  | saved error todo hs hmove => exact hmove.not_setBit id i
  | shelving hs hmove => exact hmove.not_setBit id i
  | shelved hs hmove => exact hmove.not_setBit id i
  | aborts hs he => rcases he with rfl | rfl <;> nofun
  | drops todo hs he => rcases he with rfl | rfl <;> nofun
  | dropsTmp todo hs he => rcases he with rfl | rfl <;> nofun
  | _ => nofun

/-- Workers write no control message. -/
theorem WorkerMove.not_send {p : Params} {env : Env} {w w' : Worker} {e : Effect}
    (h : WorkerMove p env w w' e) (b : Body) : e ≠ .send b := by
  cases h with
  | checkpoints hpc hcur hs hmove => exact hmove.not_send b
  | checkpointed hpc hcur hs hmove => exact hmove.not_send b
  | _ => nofun

theorem Env.sent_apply {env : Env} {e : Effect} (h : ∀ b, e ≠ .send b) :
    (env.apply e).sent = env.sent := by
  cases e with
  | send b => exact absurd rfl (h b)
  | _ => rfl

/-- One turn of the completeness loop: what is left to sweep, and what has been swept. -/
theorem MainMove.sweeps {p : Params} {env : Env} {pc pc' : MainPc} {e : Effect}
    (h : MainMove p env pc pc' e) {todo : List UInt64} (hafter : pc'.unswept = some todo) :
    e.Sweeps ∧ (pc.unswept = some todo ∨
      ∃ id st, pc = .syncing id todo ∧ pc'.unswept = some todo ∧ env.files.lookup id = some st ∧
        e = .fsync st.sink.ino) := by
  cases h with
  | allChecked =>
      cases hafter
      exact ⟨Or.inl rfl, Or.inl rfl⟩
  | complete todo hs hc =>
      cases hafter
      exact ⟨Or.inl rfl, Or.inl rfl⟩
  | @syncs id todo st hs =>
      cases hafter
      exact ⟨Or.inr (Or.inl ⟨_, rfl⟩), Or.inr ⟨id, st, rfl, rfl, hs, rfl⟩⟩
  | drops todo hs he =>
      cases hafter
      refine ⟨?_, Or.inl rfl⟩
      rcases he with rfl | rfl
      · exact Or.inl rfl
      · exact Or.inr (Or.inr (Or.inl ⟨_, rfl⟩))
  | dropsTmp todo hs he =>
      cases hafter
      refine ⟨?_, Or.inl rfl⟩
      rcases he with rfl | rfl
      · exact Or.inl rfl
      · exact Or.inr (Or.inr (Or.inl ⟨_, rfl⟩))
  | completes =>
      cases hafter
      exact ⟨Or.inr (Or.inr (Or.inr ⟨_, rfl⟩)), Or.inl rfl⟩
  | _ => cases hafter

/-- `Complete` is written by the step that returns `Ok`. -/
theorem MainMove.complete_sent {p : Params} {env : Env} {pc pc' : MainPc} {e : Effect}
    (h : MainMove p env pc pc' e) {n : UInt64} (hsent : .complete n ∈ (env.apply e).sent) :
    .complete n ∈ env.sent ∨ (pc = .completing ∧ ∃ m, pc' = .returned (.ok m)) := by
  by_cases hmem : e = .send (.complete n)
  · subst hmem
    cases h with
    | completes => exact Or.inr ⟨rfl, _, rfl⟩
    | saving error todo hs hmove => exact absurd rfl (hmove.not_send _)
    | saved error todo hs hmove => exact absurd rfl (hmove.not_send _)
    | shelving hs hmove => exact absurd rfl (hmove.not_send _)
    | shelved hs hmove => exact absurd rfl (hmove.not_send _)
    | aborts hs he => rcases he with he | he <;> cases he
    | drops todo hs he => rcases he with he | he <;> cases he
    | dropsTmp todo hs he => rcases he with he | he <;> cases he
  · refine Or.inl ?_
    cases e with
    | send b =>
        rcases List.mem_append.1 hsent with hold | hnew
        · exact hold
        · exact absurd (congrArg Effect.send (List.mem_singleton.1 hnew).symm) hmem
    | _ => exact hsent

/-- `run` returns once. -/
theorem MainMove.running {p : Params} {env : Env} {pc pc' : MainPc} {e : Effect}
    (h : MainMove p env pc pc' e) (r : Except Error UInt64) : pc ≠ .returned r := by
  cases h <;> nofun

/-- **What a step keeps of the completeness loop's findings.** -/
theorem Session.Swept.step {p : Params} {s s' : Session} {e : Effect} (h : SessionMove p s s' e)
    (hs : s.Swept) : s'.Swept := by
  cases h with
  | @arrives i w hw hopen inbox closed =>
      refine ⟨fun todo htodo v hv => ?_, hs.landed, hs.syncing, hs.sent⟩
      rcases List.mem_or_eq_of_mem_set hv with hv | rfl
      · exact hs.ended todo htodo v hv
      · exact hs.ended todo htodo w (List.mem_of_getElem? hw)
  | @worker i w w' e hw hmove =>
      -- past the join no worker is left to step
      have hnone : s.main.unswept = none := by
        cases hu : s.main.unswept with
        | none => rfl
        | some todo =>
            exact absurd (hs.ended todo hu w (List.mem_of_getElem? hw)) (hmove.running _)
      refine ⟨fun todo htodo => ?_, fun todo id st htodo => ?_, fun id todo st hmain => ?_, ?_⟩
      · exact absurd (hnone.symm.trans htodo) nofun
      · exact absurd (hnone.symm.trans htodo) nofun
      · simp only at hmain
        rw [hmain] at hnone
        cases hnone
      · intro n hn
        rw [Env.sent_apply hmove.not_send] at hn
        exact hs.sent n hn
  | accepts hmain =>
      refine ⟨nofun, nofun, nofun, fun n hn => ?_⟩
      obtain ⟨m, hm⟩ := hs.sent n hn
      rw [hmain] at hm
      cases hm
  | refuses hmain error =>
      refine ⟨nofun, nofun, nofun, fun n hn => ?_⟩
      obtain ⟨m, hm⟩ := hs.sent n hn
      rw [hmain] at hm
      cases hm
  | joins hmain hended horder hnext =>
      have hsent : ∀ n, Body.complete n ∈ s.env.sent → False := by
        intro n hn
        obtain ⟨m, hm⟩ := hs.sent n hn
        rw [hmain] at hm
        cases hm
      rcases hnext with ⟨error, -, rfl⟩ | ⟨hfirst, rfl⟩
      · exact ⟨nofun, nofun, nofun, fun n hn => (hsent n hn).elim⟩
      · refine ⟨fun _ _ => firstError_none hfirst hended, ?_, nofun, fun n hn => (hsent n hn).elim⟩
        intro todo id st htodo hst hid
        cases htodo
        exact absurd (horder.mem_iff.2 (AList.mem_keys.1 (AList.lookup_isSome.1 (by simp [hst])))) hid
  | @main main e hmove =>
      refine ⟨?_, ?_, ?_, ?_⟩
      · intro todo htodo
        rcases (hmove.sweeps htodo).2 with hold | ⟨id, st, hpc, -, -, -⟩
        · exact hs.ended todo hold
        · exact hs.ended (id :: todo) (by rw [hpc]; rfl)
      · intro todo id st htodo hst hid
        obtain ⟨hsweeps, hwhich⟩ := hmove.sweeps htodo
        obtain ⟨st0, hst0, rfl, -⟩ := Env.lookup_apply hst
        rw [hsweeps.onFile]
        rcases hwhich with hold | ⟨id0, st1, hpc, -, hst1, he⟩
        · obtain ⟨hc, hp⟩ := hs.landed todo id st0 hold hst0 hid
          exact ⟨hc, hsweeps.pending hp⟩
        · -- the file just flushed, or one swept before
          by_cases hid0 : id = id0
          · subst hid0
            obtain rfl := Option.some.inj (hst0.symm.trans hst1)
            refine ⟨hs.syncing id todo st0 hpc hst0, ?_⟩
            simp only [Env.apply_disk, he, Effect.onDisk, Disk.pending_sync, if_true]
          · obtain ⟨hc, hp⟩ := hs.landed (id0 :: todo) id st0 (by rw [hpc]; rfl) hst0
              (by simp [hid0, hid])
            exact ⟨hc, hsweeps.pending hp⟩
      · intro id todo st hmain hst
        simp only at hmain
        subst hmain
        generalize hm : s.main = pc at hmove
        cases hmove with
        | complete todo hst' hc =>
            obtain rfl := Option.some.inj (hst.symm.trans hst')
            exact hc
      · intro n hn
        rcases hmove.complete_sent hn with hold | ⟨-, hret⟩
        · obtain ⟨m, hm⟩ := hs.sent n hold
          exact absurd hm (hmove.running _)
        · exact hret

theorem Session.swept_start (st : OfferState) (streamCount : UInt32) :
    (Session.start st streamCount).Swept :=
  ⟨nofun, nofun, nofun, nofun⟩

theorem Session.swept_of_runs {p : Params} {st : OfferState} {streamCount : UInt32}
    {as : List SessionAct} {s : Session} (hrun : (Session.start st streamCount).runs p as = some s) :
    s.Swept := by
  refine Run.invariant (fun s a s' hs hstep => ?_) (Session.swept_start st streamCount) hrun
  obtain ⟨e, -, hmove⟩ := Session.step_moves hstep
  exact hs.step hmove

/-! ## What never changes in a run -/

/-- The file map of a run is the one it started with, but for bitmaps, counts and locks. -/
theorem Session.sameStates_of_runs {p : Params} {s₀ s : Session} {as : List SessionAct}
    (hrun : s₀.runs p as = some s) : SameStates s₀.env.files s.env.files := by
  refine Run.invariant (I := fun s : Session => SameStates s₀.env.files s.env.files)
    (fun s a s' hs hstep => ?_) (SameStates.refl _) hrun
  obtain ⟨e, -, hmove⟩ := Session.step_moves hstep
  exact hs.trans hmove.sameStates

/-- No file enters the map after `Accept`. -/
theorem Session.lookup_of_runs {p : Params} {s₀ s : Session} {as : List SessionAct}
    (hrun : s₀.runs p as = some s) {id : UInt64} {st : FileState}
    (hst : s.env.files.lookup id = some st) :
    ∃ st₀, s₀.env.files.lookup id = some st₀ ∧ st₀.SameFile st := by
  have hback : ∀ id st, s.env.files.lookup id = some st →
      ∃ st₀, s₀.env.files.lookup id = some st₀ ∧ st₀.SameFile st := by
    refine Run.invariant (I := fun s : Session => ∀ id st, s.env.files.lookup id = some st →
      ∃ st₀, s₀.env.files.lookup id = some st₀ ∧ st₀.SameFile st)
      (fun s a s' hs hstep id st' hst' => ?_) (fun id st h => ⟨st, h, .refl st⟩) hrun
    obtain ⟨e, -, hmove⟩ := Session.step_moves hstep
    obtain ⟨st, hst, -, hsame⟩ := hmove.lookup_back hst'
    obtain ⟨st₀, hst₀, hsame₀⟩ := hs id st hst
    exact ⟨st₀, hst₀, hsame₀.trans hsame⟩
  exact hback id st hst

/-! ## Every offered entry -/

variable {p : Params} {config : Config} {outputDir : FilePath} {chunkSize : UInt32}

/-- **When completion covers every offered entry.** In a run over an accepted offer that returns
    `Ok`, every entry has its own complete file state exactly if no two entries share a file id. -/
theorem completion_covers_entries_iff {disk : FileSystem} {entries : List (FileEntry × EntryIo)}
    {st : OfferState}
    (hoffer : offerLoop p.blake3 config outputDir chunkSize (.init disk) entries = .ok st)
    {streamCount : UInt32} {as : List SessionAct} {s : Session}
    (hrun : (Session.start st streamCount).runs p as = some s) {n : UInt64}
    (hret : s.main = .returned (.ok n)) :
    (∀ x ∈ entries, ∃ id fs, s.env.files.lookup id = some fs ∧
        fs.Serves p.blake3 outputDir chunkSize x.1 ∧ fs.bitmap.isComplete = true) ↔
      (entries.map fun x => x.1.fileId).Nodup := by
  rw [← (accepted_offerLoop hoffer).covered_iff]
  constructor
  · intro hall x hx
    obtain ⟨id, fs, hfs, hserves, -⟩ := hall x hx
    obtain ⟨fs₀, hfs₀, hsame⟩ := Session.lookup_of_runs hrun hfs
    exact ⟨id, fs₀, hfs₀, hserves.mono hsame.symm⟩
  · intro hall x hx
    obtain ⟨id, fs₀, hfs₀, hserves⟩ := hall x hx
    obtain ⟨fs, hfs, hsame⟩ := Session.sameStates_of_runs hrun id fs₀ hfs₀
    have hlanded := (Session.swept_of_runs hrun).landed [] id fs (by rw [hret]; rfl) hfs (by simp)
    exact ⟨id, fs, hfs, hserves.mono hsame, hlanded.1⟩

/-- A frame that carries a whole file of one byte. -/
def oneByteFrame (fileId : UInt64) (b : UInt8) : List UInt8 :=
  (FrameHeader.new .fileData fileId 0 1).encode ++ [b]

/-- A file of one byte arrives on stream `i`, whose worker writes it, sets its bit and reports it. -/
def receiveOneByte (i : Nat) (fileId : UInt64) (b : UInt8) : List SessionAct :=
  .deliver i (oneByteFrame fileId b) ::
    [.next, .next, .next, .write 1, .next, .next, .next, .next, .next].map (.worker i)

/-- Two files of one byte. -/
def twoFileOffer : List (FileEntry × EntryIo) :=
  [(oneByteEntry 0 "a" rootA digestA, allCallsSucceed),
    (oneByteEntry 1 "b" rootB digestB, allCallsSucceed)]

/-- Worker `i` makes a checkpoint of a file of one chunk, in one write. -/
def saveRecord (i : Nat) : List SessionAct :=
  List.replicate 6 (.worker i .next) ++ [.worker i (.write 93)] ++ List.replicate 4 (.worker i .next)

/-- Two files of one byte arrive on one stream, each followed by the steps `between`, the stream ends,
    and `run` goes over the map. -/
def receiveTwoFiles (between : List SessionAct) : List SessionAct :=
  [.accept, .main .next] ++ receiveOneByte 0 0 0x41 ++ between ++ receiveOneByte 0 1 0x42 ++
    between ++ [.close 0 .eof, .worker 0 .next, .join [0, 1]] ++ List.replicate 10 (.main .next)

/-- Checkpoints switched off. -/
def uncheckpointed : Params :=
  { blake3 := shortFileHash, totalBytes := 2, checkpointBytes := 0 }

/-- A checkpoint after every byte. -/
def checkpointed : Params :=
  { uncheckpointed with checkpointBytes := 1 }

/-- Runs over an offer into the empty directory `out`, found by evaluation. -/
theorem exists_run (p : Params) (entries : List (FileEntry × EntryIo)) (streamCount : UInt32)
    (as : List SessionAct) (check : OfferState → Session → Bool)
    (h : ((offerLoop p.blake3 plainConfig ["out"] 65536 (.init .empty) entries).toOption.any fun st =>
      ((Session.start st streamCount).runs p as).any (check st)) = true) :
    ∃ st s, offerLoop p.blake3 plainConfig ["out"] 65536 (.init .empty) entries = .ok st ∧
      (Session.start st streamCount).runs p as = some s ∧ check st s = true := by
  obtain ⟨st, hst, hrun⟩ := exists_ok_of_any h
  obtain ⟨s, hs, hcheck⟩ := (Option.any_eq_true _ _).1 hrun
  exact ⟨st, s, hst, hs, hcheck⟩

/-- What `run` has returned, if it has returned `Ok`. -/
def MainPc.returnedOk : MainPc → Option UInt64
  | .returned (.ok n) => some n
  | _ => none

theorem MainPc.returnedOk_eq_some {pc : MainPc} {n : UInt64} (h : pc.returnedOk = some n) :
    pc = .returned (.ok n) := by
  unfold returnedOk at h
  split at h
  · rw [Option.some.inj h]
  · cases h

/-- Two files under one id. -/
def duplicateIdOffer : List (FileEntry × EntryIo) :=
  [(oneByteEntry 0 "a" rootA digestA, allCallsSucceed),
    (oneByteEntry 0 "b" rootB digestB, allCallsSucceed)]

/-- The second file arrives, the stream ends, and `run` goes over the one file of its map. -/
def duplicateIdRun : List SessionAct :=
  [.accept, .main .next] ++ receiveOneByte 0 0 0x42 ++
    [.worker 0 .next, .close 0 .eof, .worker 0 .next, .join [0]] ++
    List.replicate 6 (.main .next)

theorem runs_duplicateIdOffer :
    ∃ st s n, offerLoop uncheckpointed.blake3 plainConfig ["out"] 65536 (.init .empty)
        duplicateIdOffer = .ok st ∧
      (Session.start st 1).runs uncheckpointed duplicateIdRun = some s ∧
      s.main = .returned (.ok n) := by
  obtain ⟨st, s, hst, hs, hret⟩ := exists_run uncheckpointed duplicateIdOffer 1 duplicateIdRun
    (fun _ s => s.main.returnedOk.isSome) (by decide +kernel)
  obtain ⟨n, hn⟩ := Option.isSome_iff_exists.1 hret
  exact ⟨st, s, n, hst, hs, MainPc.returnedOk_eq_some hn⟩

theorem completion_covers_entries_iff_duplicateId :
    ∃ (s : Session) (n : UInt64), s.main = .returned (.ok n) ∧
      ¬ ∀ x ∈ duplicateIdOffer, ∃ id fs, s.env.files.lookup id = some fs ∧
        fs.Serves shortFileHash ["out"] 65536 x.1 ∧ fs.bitmap.isComplete = true := by
  obtain ⟨st, s, n, hoffer, hrun, hret⟩ := runs_duplicateIdOffer
  refine ⟨s, n, hret, fun hall => ?_⟩
  have hnodup := (completion_covers_entries_iff (p := uncheckpointed) hoffer hrun hret).1 hall
  exact absurd hnodup (by decide)

/-- `run` returns `Ok` and nothing has been received of the first file. -/
theorem completed_without_first_entry :
    ¬ ∀ (p : Params) (config : Config) (outputDir : FilePath) (chunkSize : UInt32)
      (disk : FileSystem) (entries : List (FileEntry × EntryIo)) (st : OfferState)
      (streamCount : UInt32) (as : List SessionAct) (s : Session) (n : UInt64),
      offerLoop p.blake3 config outputDir chunkSize (.init disk) entries = .ok st →
      (Session.start st streamCount).runs p as = some s → s.main = .returned (.ok n) →
      ∀ x ∈ entries, ∃ id fs, s.env.files.lookup id = some fs ∧
        fs.Serves p.blake3 outputDir chunkSize x.1 ∧ fs.bitmap.isComplete = true := by
  intro hclaim
  obtain ⟨st, s, n, hoffer, hrun, hret⟩ := runs_duplicateIdOffer
  have hall := hclaim _ _ _ _ _ _ st 1 _ s n hoffer hrun hret
  have hnodup := (accepted_offerLoop hoffer).covered_iff.1 fun x hx => by
    obtain ⟨id, fs, hfs, hserves, -⟩ := hall x hx
    obtain ⟨fs₀, hfs₀, hsame⟩ := Session.lookup_of_runs hrun hfs
    exact ⟨id, fs₀, hfs₀, hserves.mono hsame.symm⟩
  exact absurd hnodup (by decide)

end AetherLink
