import AetherLink.Proofs.Record

set_option autoImplicit false

/-! # What a failed receive leaves on record

After a worker's error `run` checkpoints every file before it returns. Its other error returns do
not: one inside the loop that is still spawning workers checkpoints nothing, an incomplete file is
checkpointed alone, and a file that fails to sync ends the completeness loop. What is set in a bitmap
at the return is on record where none of these leaves a partly held file behind
(`LeavesNoneBehind`). -/

namespace AetherLink

open Bytes Storage

/-! ## Records and bitmaps -/

/-- `set_count` is not zero and the bitmap is not complete. -/
def FileState.PartlyHeld (st : FileState) : Prop :=
  st.bitmap.setCount ≠ 0 ∧ st.bitmap.isComplete = false

instance (st : FileState) : Decidable st.PartlyHeld := by
  unfold FileState.PartlyHeld
  infer_instance

/-- The record on disk is for this file and has every bit that is set. -/
def FileState.Saved (blake3 : Blake3) (d : FileSystem) (st : FileState) : Prop :=
  ∃ b, d.contents (statePath st.sink.path) = some (Resume.record blake3 st.key b) ∧
    ∀ i, st.bitmap.has i = true → b.has i = true

theorem FileState.Saved.congr {blake3 : Blake3} {d d' : FileSystem} {st st' : FileState}
    (h : st.Saved blake3 d) (hsame : st.SameFile st') (hbm : st'.bitmap = st.bitmap)
    (hdisk : d'.contents (statePath st.sink.path) = d.contents (statePath st.sink.path)) :
    st'.Saved blake3 d' := by
  obtain ⟨b, hrec, hbits⟩ := h
  refine ⟨b, ?_, ?_⟩
  · rw [hsame.sink, hsame.key, hdisk, hrec]
  · rw [hbm]
    exact hbits

/-- What the error paths rely on of the file map. -/
structure Session.Sound (s : Session) : Prop where
  wf : ∀ id st, s.env.files.lookup id = some st → st.bitmap.Wf
  named : ∀ id st, s.env.files.lookup id = some st → Named st.sink.path
  paths : ∀ id id' st st', s.env.files.lookup id = some st → s.env.files.lookup id' = some st' →
    st.sink.path = st'.sink.path → id = id'

theorem Session.Sound.step {p : Params} {s s' : Session} {e : Effect} (h : SessionMove p s s' e)
    (hs : s.Sound) : s'.Sound := by
  refine ⟨fun id st' hst' => ?_, fun id st' hst' => ?_, fun id id' t t' ht ht' hpath => ?_⟩
  · obtain ⟨st, hst, rfl, -⟩ := h.lookup_back hst'
    rcases e.bitmap_onFile id st with heq | ⟨i, b, -, hset, hb⟩
    · rw [heq]
      exact hs.wf id st hst
    · rw [hb]
      exact (hs.wf id st hst).set hset
  · obtain ⟨st, hst, -, hsame⟩ := h.lookup_back hst'
    rw [hsame.sink]
    exact hs.named id st hst
  · obtain ⟨st, hst, -, hsame⟩ := h.lookup_back ht
    obtain ⟨st', hst', -, hsame'⟩ := h.lookup_back ht'
    rw [hsame.sink, hsame'.sink] at hpath
    exact hs.paths id id' st st' hst hst' hpath

theorem Accepted.sound {blake3 : Blake3} {outputDir : FilePath} {chunkSize : UInt32}
    {entries : List (FileEntry × EntryIo)} {st : OfferState}
    (h : Accepted blake3 outputDir chunkSize entries st) (streamCount : UInt32) :
    (Session.start st streamCount).Sound := by
  refine ⟨fun id fs hfs => h.wf hfs, fun id fs hfs => ?_,
    fun _ _ _ _ hfs hfs' => h.eq_of_path_eq hfs hfs'⟩
  obtain ⟨x, -, -, hserves⟩ := h.made id fs hfs
  exact hserves.named

theorem Session.locks_start (st : OfferState) (streamCount : UInt32) :
    (Session.start st streamCount).Locks := by
  refine ⟨fun i w c fs hw => ?_, fun i j w v c d hw => ?_, fun hj => hj.elim⟩
  · simp [Session.start] at hw
  · simp [Session.start] at hw

/-! ## The error paths -/

/-- A checkpoint that `run` itself makes does not fail. -/
def CheckpointIoSucceeds (s : Session) (a : SessionAct) : Prop :=
  a = .main .fail → s.main.checkpoint? = none

/-- The step is no error return, or abort, that passes over a partly held file: no stream fails to be
    established while a file is partly held, no file is found incomplete while another is partly
    held, and no sync fails while a file is. -/
def LeavesNoneBehind (s : Session) (a : SessionAct) : Prop :=
  match s.main, a with
  | .spawning _, .refuse _ => ∀ x ∈ s.env.files.entries, ¬ x.2.PartlyHeld
  | .checking (id :: _), .main .next =>
      match s.env.files.lookup id with
      | some st => st.bitmap.isComplete = false →
          ∀ x ∈ s.env.files.entries, x.1 ≠ id → ¬ x.2.PartlyHeld
      | none => True
  | .syncing _ _, .main .fail => ∀ x ∈ s.env.files.entries, ¬ x.2.PartlyHeld
  | _, _ => True

instance (s : Session) (a : SessionAct) : Decidable (CheckpointIoSucceeds s a) := by
  unfold CheckpointIoSucceeds
  infer_instance

instance (s : Session) (a : SessionAct) : Decidable (LeavesNoneBehind s a) := by
  unfold LeavesNoneBehind
  split
  · infer_instance
  · split <;> infer_instance
  · infer_instance
  · infer_instance

/-- On the way to an error return: the files whose checkpoint is still to be made. -/
def MainPc.unsaved : MainPc → Option (List UInt64)
  | .failing _ todo => some todo
  | .saving _ id todo _ => some (id :: todo)
  | .shelving id _ => some [id]
  | .aborting _ => some []
  | _ => none

theorem MainPc.joined_of_unsaved {pc : MainPc} {todo : List UInt64} (h : pc.unsaved = some todo) :
    pc.Joined := by
  cases pc with
  | failing error ids => trivial
  | saving error id ids cp => trivial
  | shelving id cp => trivial
  | aborting id => trivial
  | _ => cases h

/-- On the way to an error return, what is not to be checkpointed any more is on record, and the
    checkpoint in progress has the bitmap as its snapshot. -/
structure Session.Saving (blake3 : Blake3) (s : Session) : Prop where
  saved : ∀ todo id st, s.main.unsaved = some todo → s.env.files.lookup id = some st → id ∉ todo →
    st.PartlyHeld → st.Saved blake3 s.env.disk
  writing : ∀ id pc st, s.main.checkpoint? = some (id, pc) → s.env.files.lookup id = some st →
    pc.Writing blake3 s.env.disk st ∧ ∀ snap, pc.snapshot? = some snap → snap = st.bitmap

/-- Outside the join and its checkpoints nothing is asked of the session. -/
theorem Session.Saving.of_idle {blake3 : Blake3} {s : Session} (hu : s.main.unsaved = none)
    (hc : s.main.checkpoint? = none) : s.Saving blake3 :=
  ⟨fun todo _ _ htodo => absurd (hu.symm.trans htodo) (Option.some_ne_none todo).symm,
    fun id pc _ hcp => absurd (hc.symm.trans hcp) (Option.some_ne_none (id, pc)).symm⟩

/-- A checkpoint step of `run` that does not fail takes the checkpoint on, or ends it with success. -/
theorem Session.mainStep_checkpoint {p : Params} {env : Env} {pc pc' : MainPc} {io : IoAct}
    {e : Effect} {id : UInt64} {cp : CheckpointPc} (h : mainStep p env pc io = some (pc', e))
    (hcp : pc.checkpoint? = some (id, cp)) (hio : io ≠ .fail) :
    ∃ st todo, env.files.lookup id = some st ∧ pc.unsaved = some (id :: todo) ∧
      ((∃ cp', CheckpointMove p.blake3 env.disk st cp (.goOn cp') e ∧
          pc'.checkpoint? = some (id, cp') ∧ pc'.unsaved = some (id :: todo)) ∨
        (CheckpointMove p.blake3 env.disk st cp (.done (.ok ())) e ∧ pc'.checkpoint? = none ∧
          pc'.unsaved = some todo)) := by
  unfold mainStep at h
  split at h
  all_goals try cases hcp
  · split at h
    · cases h
    · next st hst =>
        refine ⟨st, _, hst, rfl, ?_⟩
        split at h
        · cases h
        · next hstep =>
            cases h
            exact Or.inl ⟨_, checkpointStep_moves hstep, rfl, rfl⟩
        · next hstep =>
            cases h
            obtain rfl := checkpointStep_result hstep hio
            exact Or.inr ⟨checkpointStep_moves hstep, rfl, rfl⟩
  · split at h
    · cases h
    · next st hst =>
        refine ⟨st, _, hst, rfl, ?_⟩
        split at h
        · cases h
        · next hstep =>
            cases h
            exact Or.inl ⟨_, checkpointStep_moves hstep, rfl, rfl⟩
        · next hstep =>
            cases h
            obtain rfl := checkpointStep_result hstep hio
            exact Or.inr ⟨checkpointStep_moves hstep, rfl, rfl⟩
  · cases h

/-- Past the join the workers have ended: `run` has come there from the join, or goes on alone. -/
theorem Session.stepEffect_joined {p : Params} {s s' : Session} {a : SessionAct} {e : Effect}
    (h : s.stepEffect p a = some (s', e)) (hlocks : s.Locks) (hjoined : s'.main.Joined) :
    (s'.env = s.env ∧ s'.main = s.main) ∨
    (∃ order, s'.env = s.env ∧ order.Perm s.env.files.keys ∧
      ((∃ error, s'.main = .failing error order) ∨ s'.main = .checking order)) ∨
    ∃ io main, a = .main io ∧ mainStep p s.env s.main io = some (main, e) ∧
      s' = { s with env := s.env.apply e, main := main } := by
  cases Session.stepEffect_cases h with
  | deliver hw hopen => exact Or.inl ⟨rfl, rfl⟩
  | close hw hopen => exact Or.inl ⟨rfl, rfl⟩
  | worker hw hstep =>
      obtain ⟨r, hr⟩ := hlocks.ended hjoined _ (List.mem_of_getElem? hw)
      exact absurd hr ((Worker.step_moves hstep).running r)
  | accept hmain => exact hjoined.elim
  | refuse hmain => exact hjoined.elim
  | @join order main hmain hended horder hnext =>
      exact Or.inr (Or.inl ⟨order, rfl, horder, hnext.imp (fun ⟨error, _, heq⟩ => ⟨error, heq⟩)
        And.right⟩)
  | @main io main e hstep => exact Or.inr (Or.inr ⟨io, main, rfl, hstep, rfl⟩)

/-- A checkpoint step of `run`: the record it makes is of the bitmap, and the others are spared. -/
theorem Session.Saving.checkpoint {p : Params} {s : Session} {main : MainPc} {io : IoAct} {e : Effect}
    {id : UInt64} {cp : CheckpointPc} (h : s.Saving p.blake3) (hsound : s.Sound)
    (hstep : mainStep p s.env s.main io = some (main, e)) (hcp : s.main.checkpoint? = some (id, cp))
    (hio : io ≠ .fail) : Session.Saving p.blake3 { s with env := s.env.apply e, main := main } := by
  obtain ⟨st, todo, hst, hunsaved, hwhich⟩ := Session.mainStep_checkpoint hstep hcp hio
  obtain ⟨hwriting, hsnap⟩ := h.writing id cp st hcp hst
  have hname := hsound.named id st hst
  have hothers : ∀ {next : CheckpointNext}, CheckpointMove p.blake3 s.env.disk st cp next e →
      ∀ id' st', (s.env.apply e).files.lookup id' = some st' → id' ≠ id → id' ∉ todo →
        st'.PartlyHeld → st'.Saved p.blake3 (e.onDisk s.env.disk) := by
    intro next hmove id' st' hst' hne hid' hpart
    obtain ⟨st0, hst0, rfl, -⟩ := Env.lookup_apply hst'
    rw [hmove.onFile] at hpart ⊢
    refine (h.saved _ id' st0 hunsaved hst0 (by simp [hne, hid']) hpart).congr (.refl st0) rfl ?_
    refine (hmove.spares_statePath hname hwriting (hsound.named id' st0 hst0) ?_).contents
    exact fun hpath => hne (hsound.paths id' id st0 st hst0 hst hpath)
  rcases hwhich with ⟨cp', hmove, hcp', hafter⟩ | ⟨hmove, hcp', hafter⟩
  · refine ⟨fun ids id' st' hids hst' hid' hpart => ?_, fun id' pc' st' hpc hst' => ?_⟩
    · obtain rfl := Option.some.inj (hids.symm.trans hafter)
      rw [List.mem_cons, not_or] at hid'
      exact hothers hmove id' st' hst' hid'.1 hid'.2 hpart
    · obtain ⟨rfl, rfl⟩ := Prod.mk.inj (Option.some.inj (hpc.symm.trans hcp'))
      obtain ⟨st0, hst0, rfl, -⟩ := Env.lookup_apply hst'
      obtain rfl := Option.some.inj (hst.symm.trans hst0)
      rw [hmove.onFile]
      refine ⟨hmove.writing hwriting, fun snap hs => ?_⟩
      rw [hmove.snapshot?_eq, Option.some.injEq] at hs
      cases hc : cp.snapshot? with
      | none => rw [← hs, hc, Option.getD_none]
      | some snap' => rw [← hs, hc, Option.getD_some, hsnap snap' hc]
  · refine ⟨fun ids id' st' hids hst' hid' hpart => ?_, fun id' pc' st' hpc => ?_⟩
    · obtain rfl := Option.some.inj (hids.symm.trans hafter)
      by_cases hne : id' = id
      · -- the file just checkpointed
        subst hne
        obtain ⟨st0, hst0, rfl, -⟩ := Env.lookup_apply hst'
        obtain rfl := Option.some.inj (hst.symm.trans hst0)
        rw [hmove.onFile] at hpart ⊢
        rcases hmove.recorded hname hwriting with ⟨-, hzero, -⟩ | ⟨snap, tmp, hpc, hnode, hdata, -⟩
        · exact absurd hzero hpart.1
        · obtain rfl := hsnap snap (by rw [hpc]; rfl)
          exact ⟨st.bitmap, by rw [← hdata]; exact Disk.contents_of_node hnode, fun _ hi => hi⟩
      · exact hothers hmove id' st' hst' hne hid' hpart
    · exact absurd (hpc.symm.trans hcp') nofun

theorem mem_entries_of_lookup {files : Files} {id : UInt64} {st : FileState}
    (h : files.lookup id = some st) : ⟨id, st⟩ ∈ files.entries :=
  AList.mem_lookup_iff.1 h

/-- **What a step keeps on the way to an error return.** -/
theorem Session.Saving.step {p : Params} {s s' : Session} {a : SessionAct} {e : Effect}
    (hstep : s.stepEffect p a = some (s', e)) (hlocks : s.Locks) (hsound : s.Sound)
    (hio : CheckpointIoSucceeds s a) (hnone : LeavesNoneBehind s a) (h : s.Saving p.blake3) :
    s'.Saving p.blake3 := by
  by_cases hjoined : s'.main.Joined
  swap
  · exact ⟨fun todo id st htodo => absurd (MainPc.joined_of_unsaved htodo) hjoined,
      fun id pc st hcp => absurd (MainPc.joined_of_checkpoint? hcp) hjoined⟩
  rcases Session.stepEffect_joined hstep hlocks hjoined with
    ⟨henv, hmain⟩ | ⟨order, henv, horder, hnext⟩ | ⟨io, main, rfl, hmain, rfl⟩
  · refine ⟨fun todo id st htodo => ?_, fun id pc st hcp => ?_⟩
    · rw [henv]
      exact h.saved todo id st (hmain ▸ htodo)
    · rw [henv]
      exact h.writing id pc st (hmain ▸ hcp)
  · -- every file is still to be checkpointed
    refine ⟨fun todo id st htodo hst hid => ?_, fun id pc st hcp => ?_⟩
    · rw [henv] at hst
      have hmem : id ∈ order :=
        horder.mem_iff.2 (AList.mem_keys.1 (AList.lookup_isSome.1 (by simp [hst])))
      rcases hnext with ⟨error, hnext⟩ | hnext <;> rw [hnext] at htodo <;> cases htodo
      exact absurd hmem hid
    · rcases hnext with ⟨error, hnext⟩ | hnext <;> rw [hnext] at hcp <;> cases hcp
  · cases hcp : s.main.checkpoint? with
    | some cpid =>
        have hnofail : io ≠ .fail := by
          rintro rfl
          exact absurd ((hio rfl).symm.trans hcp) nofun
        obtain ⟨id, cp⟩ := cpid
        exact h.checkpoint hsound hmain hcp hnofail
    | none =>
        have hmove := mainStep_moves hmain
        generalize hpc : s.main = pc at hmove hcp
        cases hmove with
        | saves error id todo =>
            refine ⟨fun ids id' st hids => ?_, fun id' pc' st hpc' _ => ?_⟩
            · cases hids
              exact h.saved _ id' st (by rw [hpc]; rfl)
            · cases hpc'
              exact ⟨trivial, nofun⟩
        | @incomplete id todo st hst hc =>
            refine ⟨fun ids id' st' hids hst' hid' hpart => ?_, fun id' pc' st' hpc' _ => ?_⟩
            · cases hids
              have hstep' : LeavesNoneBehind s (.main io) := hnone
              cases io with
              | next =>
                  simp only [LeavesNoneBehind, hpc, hst] at hstep'
                  exact absurd hpart (hstep' hc _ (mem_entries_of_lookup hst') (by simpa using hid'))
              | write n => simp [mainStep, hpc] at hmain
              | fail => simp [mainStep, hpc] at hmain
            · cases hpc'
              exact ⟨trivial, nofun⟩
        | saving error todo hs hmove => cases hcp
        | saved error todo hs hmove => cases hcp
        | shelving hs hmove => cases hcp
        | shelved hs hmove => cases hcp
        | _ => exact .of_idle rfl rfl

/-! ## Error returns -/

/-- What the run lemma carries along. -/
structure Session.Recording (blake3 : Blake3) (s : Session) : Prop where
  locks : s.Locks
  sound : s.Sound
  swept : s.Swept
  saving : s.Saving blake3

theorem Session.Recording.step {p : Params} {s s' : Session} {a : SessionAct}
    (h : s.Recording p.blake3) (hio : CheckpointIoSucceeds s a) (hnone : LeavesNoneBehind s a)
    (hstep : s.step p a = some s') : s'.Recording p.blake3 := by
  obtain ⟨e, heff, hmove⟩ := Session.step_moves hstep
  exact ⟨hmove.locks h.locks, h.sound.step hmove, h.swept.step hmove,
    h.saving.step heff h.locks h.sound hio hnone⟩

theorem Accepted.recording {blake3 : Blake3} {outputDir : FilePath} {chunkSize : UInt32}
    {entries : List (FileEntry × EntryIo)} {st : OfferState}
    (h : Accepted blake3 outputDir chunkSize entries st) (streamCount : UInt32) :
    (Session.start st streamCount).Recording blake3 :=
  ⟨Session.locks_start st streamCount, h.sound streamCount, Session.swept_start st streamCount,
    .of_idle rfl rfl⟩

/-- `run` returns when a stream is refused, or by a step of its own. -/
theorem Session.stepEffect_returns {p : Params} {s s' : Session} {a : SessionAct} {e : Effect}
    {r : Except Error UInt64} (h : s.stepEffect p a = some (s', e))
    (hrunning : ∀ r, s.main ≠ .returned r) (hret : s'.main = .returned r) :
    (∃ error left, a = .refuse error ∧ s.main = .spawning (left + 1) ∧ s'.env = s.env) ∨
    ∃ io, a = .main io ∧ mainStep p s.env s.main io = some (.returned r, e) ∧
      s'.env = s.env.apply e := by
  cases Session.stepEffect_cases h with
  | @refuse left error hmain => exact Or.inl ⟨error, left, rfl, hmain, rfl⟩
  | @main io main e hstep =>
      simp only at hret
      exact Or.inr ⟨io, rfl, hret ▸ hstep, rfl⟩
  | deliver hw hopen => exact absurd hret (hrunning r)
  | close hw hopen => exact absurd hret (hrunning r)
  | worker hw hstep => exact absurd hret (hrunning r)
  | accept hmain => cases hret
  | join hmain hended horder hnext =>
      rcases hnext with ⟨error, -, rfl⟩ | ⟨-, rfl⟩
      · cases hret
      · cases hret

/-- The step that returns an error: what it leaves partly held is on record. -/
theorem Session.Recording.returns {p : Params} {s s' : Session} {a : SessionAct} {error : Error}
    (h : s.Recording p.blake3) (hnone : LeavesNoneBehind s a) (hstep : s.step p a = some s')
    (hrunning : ∀ r, s.main ≠ .returned r) (hret : s'.main = .returned (.error error)) {id : UInt64}
    {st : FileState} (hst : s'.env.files.lookup id = some st) (hpart : st.PartlyHeld) :
    st.Saved p.blake3 s'.env.disk := by
  obtain ⟨e, heff, -⟩ := Session.step_moves hstep
  rcases Session.stepEffect_returns heff hrunning hret with
    ⟨error, left, rfl, hmain, henv⟩ | ⟨io, rfl, hmain, henv⟩
  · rw [henv] at hst
    simp only [LeavesNoneBehind, hmain] at hnone
    exact absurd hpart (hnone _ (mem_entries_of_lookup hst))
  · have hmove := mainStep_moves hmain
    -- the error returns of `run` itself change neither the files nor the disk
    have hquiet : (e = .quiet ∨ ∃ b, e = .send b) → s'.env.disk = s.env.disk ∧
        s.env.files.lookup id = some st := by
      intro he
      rw [henv] at hst ⊢
      rcases he with rfl | ⟨b, rfl⟩ <;> exact ⟨rfl, hst⟩
    generalize hpc : s.main = pc at hmove
    cases hmove with
    | failed =>
        obtain ⟨hdisk, hst'⟩ := hquiet (Or.inl rfl)
        rw [hdisk]
        exact h.saving.saved [] id st (by rw [hpc]; rfl) hst' (by simp) hpart
    | aborts hs he =>
        obtain ⟨hdisk, hst'⟩ := hquiet (he.imp_right fun he => ⟨_, he⟩)
        rw [hdisk]
        exact h.saving.saved [] id st (by rw [hpc]; rfl) hst' (by simp) hpart
    | @syncFails id0 todo st0 _ hs =>
        obtain ⟨-, hst'⟩ := hquiet (Or.inl rfl)
        cases io with
        | fail =>
            simp only [LeavesNoneBehind, hpc] at hnone
            exact absurd hpart (hnone _ (mem_entries_of_lookup hst'))
        | next => simp [mainStep, hpc, hs] at hmain
        | write n => simp [mainStep, hpc, hs] at hmain
    | completeFails =>
        obtain ⟨-, hst'⟩ := hquiet (Or.inl rfl)
        have hlanded := h.swept.landed [] id st (by rw [hpc]; rfl) hst' (by simp)
        exact absurd (hpart.2.symm.trans hlanded.1) (by simp)

variable {p : Params} {config : Config} {outputDir : FilePath} {chunkSize : UInt32}

/-- **What a failed receive leaves on record.** In a run whose own checkpoints do not fail and none
    of whose error returns passes over a partly held file, every incomplete file with a bit set has,
    at the moment `run` returns an error, a record on disk with every bit of its bitmap. -/
theorem failed_receive_keeps_progress {disk : FileSystem} {entries : List (FileEntry × EntryIo)}
    {st : OfferState}
    (hoffer : offerLoop p.blake3 config outputDir chunkSize (.init disk) entries = .ok st)
    {streamCount : UInt32} {as : List SessionAct} {a : SessionAct} {s s' : Session}
    (hrun : (Session.start st streamCount).runs p as = some s) (hstep : s.step p a = some s')
    (hio : Run.Meets (Session.step p) CheckpointIoSucceeds (Session.start st streamCount) (as ++ [a]))
    (hnone : Run.Meets (Session.step p) LeavesNoneBehind (Session.start st streamCount) (as ++ [a]))
    (hrunning : ∀ r, s.main ≠ .returned r) {error : Error}
    (hret : s'.main = .returned (.error error)) (id : UInt64) (fs : FileState)
    (hfs : s'.env.files.lookup id = some fs) (hset : ∃ i, fs.bitmap.has i = true)
    (hincomplete : fs.bitmap.isComplete = false) :
    ∃ b, s'.env.disk.contents (statePath fs.sink.path) = some (Resume.record p.blake3 fs.key b) ∧
      ∀ i, fs.bitmap.has i = true → b.has i = true := by
  obtain ⟨hboth, hlast⟩ := (hio.and hnone).append hrun
  have hrec : s.Recording p.blake3 :=
    Run.invariant_of (fun _ _ _ hI hC hstep => hI.step hC.1 hC.2 hstep)
      ((accepted_offerLoop hoffer).recording streamCount) hboth hrun
  have hrec' : s'.Recording p.blake3 := hrec.step hlast.1.1 hlast.1.2 hstep
  have hwf := hrec'.sound.wf id fs hfs
  obtain ⟨i, hi⟩ := hset
  have hcount : fs.bitmap.setCount ≠ 0 := hwf.setCount_pos_iff.2 ⟨i, hwf.lt_count hi, hi⟩
  exact hrec.returns hlast.1.2 hstep hrunning hret hfs ⟨hcount, hincomplete⟩

/-- Whether `run` has returned. -/
def MainPc.hasReturned : MainPc → Bool
  | .returned _ => true
  | _ => false

theorem MainPc.ne_returned {pc : MainPc} (h : pc.hasReturned = false) (r : Except Error UInt64) :
    pc ≠ .returned r := by
  rintro rfl
  cases h

/-- The error `run` has returned. -/
def MainPc.returnedError : MainPc → Option Error
  | .returned (.error e) => some e
  | _ => none

theorem MainPc.returnedError_eq_some {pc : MainPc} {e : Error} (h : pc.returnedError = some e) :
    pc = .returned (.error e) := by
  unfold returnedError at h
  split at h
  · rw [Option.some.inj h]
  · cases h

/-- A file of two chunks: 65536 zero bytes and the byte `A`. -/
def twoChunkOffer : List (FileEntry × EntryIo) :=
  [({ fileId := 0, relativePath := "a", sizeBytes := 65537, rootHash := rootTwoChunks.1,
      chunkHashes := digestZeroChunk.1 ++ digestA.1 }, allCallsSucceed)]

/-- The last chunk arrives on stream 0, whose worker writes it and sets its bit. -/
def receiveLastChunk : List SessionAct :=
  .deliver 0 ((FrameHeader.new .fileData 0 65536 1).encode ++ [0x41]) ::
    [.next, .next, .next, .write 1, .next, .next].map (.worker 0)

/-- The stream then fails, and `run` checkpoints the file. -/
def savingRun : List SessionAct :=
  [.accept, .main .next] ++ receiveLastChunk ++
    [.worker 0 .next, .worker 0 .next, .worker 0 .next, .close 0 .failed, .worker 0 .next, .join [0],
      .main .next, .main .next, .main .next, .main .next, .main (.write 93), .main .next, .main .next,
      .main .next]

theorem failed_receive_keeps_progress_twoChunk :
    ∃ (s' : Session) (fs : FileState), s'.env.files.lookup 0 = some fs ∧
      (∃ i, fs.bitmap.has i = true) ∧
      ∃ b, s'.env.disk.contents (statePath fs.sink.path)
          = some (Resume.record uncheckpointed.blake3 fs.key b) ∧
        ∀ i, fs.bitmap.has i = true → b.has i = true := by
  obtain ⟨st, s, hst, hs, hcheck⟩ := exists_run uncheckpointed twoChunkOffer 1 savingRun
    (fun st s => decide (Run.Meets (Session.step uncheckpointed) CheckpointIoSucceeds
          (Session.start st 1) (savingRun ++ [.main .next])) &&
        decide (Run.Meets (Session.step uncheckpointed) LeavesNoneBehind
          (Session.start st 1) (savingRun ++ [.main .next])) &&
      (!s.main.hasReturned && (s.step uncheckpointed (.main .next)).any fun s' =>
        s'.main.returnedError.isSome && (s'.env.files.lookup 0).any fun fs =>
          fs.bitmap.has 1 && !fs.bitmap.isComplete)) (by decide +kernel)
  simp only [Bool.and_eq_true, Bool.not_eq_true'] at hcheck
  obtain ⟨⟨hio, hnone⟩, hrunning, hlast⟩ := hcheck
  obtain ⟨s', hs', hlast⟩ := (Option.any_eq_true _ _).1 hlast
  rw [Bool.and_eq_true] at hlast
  obtain ⟨error, hret⟩ := Option.isSome_iff_exists.1 hlast.1
  obtain ⟨fs, hfs, hbits⟩ := (Option.any_eq_true _ _).1 hlast.2
  rw [Bool.and_eq_true, Bool.not_eq_true'] at hbits
  exact ⟨s', fs, hfs, ⟨1, hbits.1⟩, failed_receive_keeps_progress hst hs hs'
    (of_decide_eq_true hio) (of_decide_eq_true hnone) (MainPc.ne_returned hrunning)
    (MainPc.returnedError_eq_some hret) 0 fs hfs ⟨1, hbits.1⟩ hbits.2⟩

/-- The second stream is refused after the first has received the last chunk. -/
def refusedRun : List SessionAct :=
  .accept :: receiveLastChunk

/-- `run` returns without a checkpoint: the file is partly held and has no record. -/
theorem refused_stream_loses_progress :
    ¬ ∀ (p : Params) (config : Config) (outputDir : FilePath) (chunkSize : UInt32)
      (disk : FileSystem) (entries : List (FileEntry × EntryIo)) (st : OfferState)
      (streamCount : UInt32) (as : List SessionAct) (a : SessionAct) (s s' : Session) (error : Error),
      offerLoop p.blake3 config outputDir chunkSize (.init disk) entries = .ok st →
      (Session.start st streamCount).runs p as = some s → s.step p a = some s' →
      Run.Meets (Session.step p) CheckpointIoSucceeds (Session.start st streamCount) (as ++ [a]) →
      (∀ r, s.main ≠ .returned r) → s'.main = .returned (.error error) →
      ∀ id fs, s'.env.files.lookup id = some fs → (∃ i, fs.bitmap.has i = true) →
        fs.bitmap.isComplete = false →
        ∃ b, s'.env.disk.contents (statePath fs.sink.path)
            = some (Resume.record p.blake3 fs.key b) ∧
          ∀ i, fs.bitmap.has i = true → b.has i = true := by
  intro hclaim
  obtain ⟨st, s, hst, hs, hcheck⟩ := exists_run uncheckpointed twoChunkOffer 2 refusedRun
    (fun st s => decide (Run.Meets (Session.step uncheckpointed) CheckpointIoSucceeds
          (Session.start st 2) (refusedRun ++ [.refuse (.tls "handshake")])) &&
      (!s.main.hasReturned && (s.step uncheckpointed (.refuse (.tls "handshake"))).any fun s' =>
        s'.main.returnedError.isSome && (s'.env.files.lookup 0).any fun fs =>
          fs.bitmap.has 1 && !fs.bitmap.isComplete &&
            (s'.env.disk.contents (statePath fs.sink.path)).isNone)) (by decide +kernel)
  simp only [Bool.and_eq_true, Bool.not_eq_true'] at hcheck
  obtain ⟨hio, hrunning, hlast⟩ := hcheck
  obtain ⟨s', hs', hlast⟩ := (Option.any_eq_true _ _).1 hlast
  rw [Bool.and_eq_true] at hlast
  obtain ⟨error, hret⟩ := Option.isSome_iff_exists.1 hlast.1
  obtain ⟨fs, hfs, hbits⟩ := (Option.any_eq_true _ _).1 hlast.2
  rw [Bool.and_eq_true, Bool.and_eq_true, Bool.not_eq_true'] at hbits
  obtain ⟨b, hrec, -⟩ := hclaim _ _ _ _ _ _ st 2 _ _ s s' error hst hs hs' (of_decide_eq_true hio)
    (MainPc.ne_returned hrunning) (MainPc.returnedError_eq_some hret) 0 fs hfs ⟨1, hbits.1.1⟩
    hbits.1.2
  rw [hrec] at hbits
  exact absurd hbits.2 (by simp)

end AetherLink
