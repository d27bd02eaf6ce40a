import AetherLink.Lib.Tally
import AetherLink.Proofs.Accepted
import AetherLink.Proofs.Completion
import AetherLink.Proofs.Turn

set_option autoImplicit false

/-! # What the checkpoint trigger has seen

A worker sets the bit of its chunk, then adds the chunk's length to `since_checkpoint`, and a worker
that finds the sum large enough stores zero and takes a snapshot of the bitmap. The ledger of a file
follows this from outside: what workers have marked, what the last snapshot has of it, and the lengths
added since the last store, counted without a bound. -/

namespace AetherLink

/-! ## The ledger of a file -/

structure Ledger where
  /-- chunks whose bit a worker has set -/
  marked : List Nat
  /-- the most recent snapshot -/
  snapshot : Option ChunkBitmap
  /-- bytes added since the last store of zero -/
  added : Nat
  /-- bytes of chunks whose bit is set and whose length is not added yet -/
  unadded : Nat

namespace Ledger

def empty : Ledger :=
  { marked := [], snapshot := none, added := 0, unadded := 0 }

/-- A worker has set the bit, and the most recent snapshot does not have it. -/
def unsaved (l : Ledger) (index : Nat) : Bool :=
  l.marked.contains index && ! l.snapshot.any fun b => b.has index

/-- The total length of the chunks set by workers and not contained in the most recent snapshot. -/
def unsavedBytes (l : Ledger) (layout : ChunkLayout) : Nat :=
  (((List.range layout.count).filter l.unsaved).map layout.len).sum

/-- The ledger after a step of a worker at a place on the chunk `c` of the file `st`. -/
def afterWorker (p : Params) (st : FileState) (c : Current) (l : Ledger) : WorkerPc → Ledger
  | .mark =>
      if c.chunkIndex < st.bitmap.count then
        { l with marked := c.chunkIndex :: l.marked, unadded := l.unadded + c.expectedLen }
      else l
  | .due =>
      -- with checkpoints switched off the length is never added
      if p.checkpointBytes = 0 then l
      else { l with added := l.added + c.expectedLen, unadded := l.unadded - c.expectedLen }
  | .reset => { l with added := 0 }
  | .checkpoint .snapshot => { l with snapshot := some st.bitmap }
  | _ => l

/-- The ledger of the file `id` after a step of the worker `w`. -/
def byWorker (p : Params) (id : UInt64) (st : FileState) (l : Ledger) (w : Worker) : Ledger :=
  match w.current with
  | none => l
  | some c => if c.fileId = id then l.afterWorker p st c w.pc else l

/-- The ledger of the file `id` after a step. -/
def after (p : Params) (id : UInt64) (l : Ledger) (s : Session) (a : SessionAct) : Ledger :=
  match a, s.env.files.lookup id with
  | .worker i _, some st => (s.workers[i]?).elim l (l.byWorker p id st)
  | .main _, some st =>
      if s.main.checkpoint? = some (id, .snapshot) then { l with snapshot := some st.bitmap } else l
  | _, _ => l

end Ledger

/-- The ledger of the file `id` at the end of a run. -/
def Session.ledger (p : Params) (id : UInt64) (s : Session) (as : List SessionAct) : Ledger :=
  Run.carry (Session.step p) (Ledger.after p id) .empty s as

/-! ## What is unsaved -/

namespace Ledger

variable {l : Ledger} {layout : ChunkLayout}

/-- Marking a chunk adds no more than its length. -/
theorem unsavedBytes_mark {i : Nat} (hi : i < layout.count) (unadded : Nat) :
    unsavedBytes { l with marked := i :: l.marked, unadded := unadded } layout
      ≤ l.unsavedBytes layout + layout.len i := by
  have hold : ∀ j, unsaved { l with marked := i :: l.marked, unadded := unadded } j
      = (l.unsaved j || (decide (j = i) && ! l.snapshot.any fun b => b.has j)) := by
    intro j
    simp only [unsaved, List.contains_cons, beq_eq_decide]
    cases hj : decide (j = i) <;> cases l.marked.contains j <;>
      cases l.snapshot.any fun b => b.has j <;> rfl
  by_cases hnew : l.unsaved i = false ∧ (l.snapshot.any fun b => b.has i) = false
  · refine Nat.le_of_eq (ChunkBitmap.sum_filter_range_set hi hnew.1 (fun j => ?_) layout.len)
    rw [hold]
    by_cases hj : j = i
    · subst hj
      simp [hnew.2]
    · simp [hj]
  · -- the chunk is unsaved already, or saved
    have hsame : unsaved { l with marked := i :: l.marked, unadded := unadded } = l.unsaved := by
      funext j
      rw [hold]
      by_cases hj : j = i
      · subst hj
        cases hu : l.unsaved j with
        | true => rfl
        | false =>
            have hsaved : (l.snapshot.any fun b => b.has j) = true := by
              by_contra hns
              exact hnew ⟨hu, by simpa using hns⟩
            simp [hsaved]
      · simp [hj]
    rw [unsavedBytes, hsame]
    exact Nat.le_add_right _ _

/-- A snapshot that has all marked bits leaves nothing unsaved. -/
theorem unsavedBytes_snapshot {b : ChunkBitmap} (h : ∀ i ∈ l.marked, b.has i = true) :
    unsavedBytes { l with snapshot := some b } layout = 0 := by
  have hnone : (List.range layout.count).filter (unsaved { l with snapshot := some b }) = [] := by
    rw [List.filter_eq_nil_iff]
    intro i _ hi
    simp only [unsaved, Bool.and_eq_true, Bool.not_eq_true', List.contains_iff_mem,
      Option.any_some] at hi
    rw [h i hi.1] at hi
    cases hi.2
  rw [unsavedBytes, hnone]
  rfl

end Ledger

/-! ## Steps of a worker -/

/-- The places between setting the bit and adding the length. -/
def WorkerPc.adding : WorkerPc → Bool
  | .count _ => true
  | .report _ _ => true
  | .announce => true
  | .due => true
  | _ => false

/-- What the worker has marked of the file `id` and not added yet. -/
def Worker.unadded (id : UInt64) (w : Worker) : Nat :=
  match w.current with
  | none => 0
  | some c => if w.pc.adding = true ∧ c.fileId = id then c.expectedLen else 0

/-- Between its `store(0)` and its snapshot. -/
def Worker.Resetting (id : UInt64) (w : Worker) : Prop :=
  w.checkpoint? = some (id, .snapshot)

theorem Worker.unadded_of_pc {w : Worker} (h : w.pc.adding = false) (id : UInt64) :
    w.unadded id = 0 := by
  unfold unadded
  split
  · rfl
  · simp [h]

theorem Worker.unadded_of_ne {w : Worker} {c : Current} (hcur : w.current = some c) {id : UInt64}
    (h : c.fileId ≠ id) : w.unadded id = 0 := by
  simp [unadded, hcur, h]

theorem Worker.unadded_self {w : Worker} {c : Current} (hcur : w.current = some c)
    (hpc : w.pc.adding = true) : w.unadded c.fileId = c.expectedLen := by
  simp [unadded, hcur, hpc]

theorem Worker.not_resetting {w : Worker} (h : w.pc ≠ .checkpoint .snapshot) (id : UInt64) :
    ¬ w.Resetting id := by
  intro hreset
  exact h (Worker.checkpoint?_eq_some hreset).1

/-- A step of a worker, by what it does to the ledger of the file `id`. -/
inductive Worker.Triggers (p : Params) (id : UInt64) (st st' : FileState) (w w' : Worker)
    (l : Ledger) : Ledger → Prop
  | elsewhere (hbit : st'.bitmap = st.bitmap) (hsince : st'.sinceCheckpoint = st.sinceCheckpoint)
      (hun : w'.unadded id = w.unadded id) (hreset : w.Resetting id → w'.Resetting id) :
      Triggers p id st st' w w' l l
  | marks {c : Current} (hof : c.Of st) (hset : st.bitmap.set c.chunkIndex = .ok st'.bitmap)
      (hsince : st'.sinceCheckpoint = st.sinceCheckpoint) (hun : w.unadded id = 0)
      (hun' : w'.unadded id = c.expectedLen) (hreset : ¬ w.Resetting id) :
      Triggers p id st st' w w' l
        { l with marked := c.chunkIndex :: l.marked, unadded := l.unadded + c.expectedLen }
  | adds {c : Current} (hon : p.checkpointBytes ≠ 0) (hbit : st'.bitmap = st.bitmap)
      (hsince : st'.sinceCheckpoint = st.sinceCheckpoint + UInt64.ofNat c.expectedLen)
      (hun : w.unadded id = c.expectedLen) (hun' : w'.unadded id = 0)
      (hreset : ¬ w.Resetting id) :
      Triggers p id st st' w w' l
        { l with added := l.added + c.expectedLen, unadded := l.unadded - c.expectedLen }
  | skips (hoff : p.checkpointBytes = 0) (hbit : st'.bitmap = st.bitmap)
      (hsince : st'.sinceCheckpoint = st.sinceCheckpoint) (hun' : w'.unadded id = 0)
      (hreset : ¬ w.Resetting id) : Triggers p id st st' w w' l l
  | resets (hbit : st'.bitmap = st.bitmap) (hsince : st'.sinceCheckpoint = 0)
      (hun : w'.unadded id = w.unadded id) (hreset : w'.Resetting id) :
      Triggers p id st st' w w' l { l with added := 0 }
  | snapshots (hbit : st'.bitmap = st.bitmap) (hsince : st'.sinceCheckpoint = st.sinceCheckpoint)
      (hun : w'.unadded id = w.unadded id) :
      Triggers p id st st' w w' l { l with snapshot := some st.bitmap }

/-- Where an effect leaves the bitmap and the byte count of a file alone. -/
def Effect.Bypasses (e : Effect) : Prop :=
  (∀ id i, e ≠ .setBit id i) ∧ ∀ id n, e ≠ .setSince id n

theorem Effect.Bypasses.bitmap {e : Effect} (h : e.Bypasses) (id : UInt64) (st : FileState) :
    (e.onFile id st).bitmap = st.bitmap :=
  Effect.bitmap_onFile_of_ne id st (h.1 id)

theorem Effect.Bypasses.since {e : Effect} (h : e.Bypasses) (id : UInt64) (st : FileState) :
    (e.onFile id st).sinceCheckpoint = st.sinceCheckpoint := by
  cases e with
  | setBit id' i => exact absurd rfl (h.1 id' i)
  | setSince id' n => exact absurd rfl (h.2 id' n)
  | setLock id' b =>
      simp only [onFile]
      split <;> rfl
  | _ => rfl

theorem CheckpointMove.bypasses {blake3 : Blake3} {disk : FileSystem} {s : FileState}
    {pc : CheckpointPc} {next : CheckpointNext} {e : Effect}
    (h : CheckpointMove blake3 disk s pc next e) : e.Bypasses := by
  cases h <;> exact ⟨by simp, by simp⟩

theorem MainMove.bypasses {p : Params} {env : Env} {pc pc' : MainPc} {e : Effect}
    (h : MainMove p env pc pc' e) : e.Bypasses := by
  cases h with
  | saving error todo hs hmove => exact hmove.bypasses
  | saved error todo hs hmove => exact hmove.bypasses
  | shelving hs hmove => exact hmove.bypasses
  | shelved hs hmove => exact hmove.bypasses
  | aborts hs he => rcases he with rfl | rfl <;> exact ⟨by simp, by simp⟩
  | drops todo hs he => rcases he with rfl | rfl <;> exact ⟨by simp, by simp⟩
  | dropsTmp todo hs he => rcases he with rfl | rfl <;> exact ⟨by simp, by simp⟩
  | _ => exact ⟨by simp, by simp⟩

/-- The places where a step of the worker is no concern of the ledger. -/
def WorkerPc.aside : WorkerPc → Bool
  | .mark => false
  | .count _ => false
  | .report _ _ => false
  | .announce => false
  | .due => false
  | .reset => false
  | .checkpoint .snapshot => false
  | _ => true

section Steps

variable {p : Params} {env : Env} {w w' : Worker} {e : Effect} {io : IoAct}

theorem WorkerPc.adding_of_aside {pc : WorkerPc} (h : pc.aside = true) : pc.adding = false := by
  cases pc with
  | count b => cases h
  | report b d => cases h
  | announce => cases h
  | due => cases h
  | _ => rfl

theorem WorkerMove.of_aside (h : WorkerMove p env w w' e) (hpc : w.pc.aside = true) :
    e.Bypasses ∧ w'.pc.adding = false := by
  have hquiet : Effect.Bypasses .quiet := ⟨by simp, by simp⟩
  have hnot : ∀ {pc : WorkerPc}, w.pc = pc → pc.aside = false → False := by
    intro pc heq hfalse
    rw [heq, hfalse] at hpc
    cases hpc
  cases h with
  | skips hpc' hlen hdec htype => exact ⟨hquiet, by rw [hpc']; rfl⟩
  | buffers hpc' hcur hn =>
      refine ⟨hquiet, ?_⟩
      simp only
      split <;> rfl
  | marks hpc' hcur hs hset => exact (hnot hpc' rfl).elim
  | counts hpc' hcur => exact (hnot hpc' rfl).elim
  | reports hpc' => exact (hnot hpc' rfl).elim
  | announces hpc' hcur hs => exact (hnot hpc' rfl).elim
  | notDue hpc' hoff => exact (hnot hpc' rfl).elim
  | notYet hpc' hcur hs hlt => exact (hnot hpc' rfl).elim
  | comesDue hpc' hcur hs hge => exact (hnot hpc' rfl).elim
  | resets hpc' hcur => exact (hnot hpc' rfl).elim
  | checkpoints hpc' hcur hs hmove => exact ⟨hmove.bypasses, rfl⟩
  | checkpointed hpc' hcur hs hmove => exact ⟨hmove.bypasses, rfl⟩
  | _ => exact ⟨⟨by simp, by simp⟩, rfl⟩

/-- A worker with a chunk in progress keeps to it, and to its file. -/
theorem WorkerMove.keeps_chunk {c : Current} (h : WorkerMove p env w w' e)
    (hcur : w.current = some c) :
    (w'.current = none ∨ w'.current = some c) ∧ (e.target = none ∨ e.target = some c.fileId) := by
  cases h with
  | opens hpc hlen hdec htype hacc =>
      obtain ⟨s, hs, ⟨hsame, -⟩ | ⟨hnone, -, -⟩, -⟩ := acceptFrame_ok hacc
      · exact ⟨Or.inr (hsame.symm.trans hcur), Or.inl rfl⟩
      · rw [hnone] at hcur
        cases hcur
  | marks hpc hcur' hs hset =>
      obtain rfl := Option.some.inj (hcur.symm.trans hcur')
      exact ⟨Or.inr hcur, Or.inr rfl⟩
  | notDue hpc hoff => exact ⟨Or.inl rfl, Or.inl rfl⟩
  | notYet hpc hcur' hs hlt =>
      obtain rfl := Option.some.inj (hcur.symm.trans hcur')
      exact ⟨Or.inl rfl, Or.inr rfl⟩
  | comesDue hpc hcur' hs hge =>
      obtain rfl := Option.some.inj (hcur.symm.trans hcur')
      exact ⟨Or.inr hcur, Or.inr rfl⟩
  | lockTaken hpc hcur' hs htaken => exact ⟨Or.inl rfl, Or.inl rfl⟩
  | locks hpc hcur' hs hfree =>
      obtain rfl := Option.some.inj (hcur.symm.trans hcur')
      exact ⟨Or.inr hcur, Or.inr rfl⟩
  | resets hpc hcur' =>
      obtain rfl := Option.some.inj (hcur.symm.trans hcur')
      exact ⟨Or.inr hcur, Or.inr rfl⟩
  | checkpoints hpc hcur' hs hmove => exact ⟨Or.inr hcur, Or.inl (by cases hmove <;> rfl)⟩
  | checkpointed hpc hcur' hs hmove => exact ⟨Or.inr hcur, Or.inl (by cases hmove <;> rfl)⟩
  | releases hpc hcur' =>
      obtain rfl := Option.some.inj (hcur.symm.trans hcur')
      exact ⟨Or.inl rfl, Or.inr rfl⟩
  | givesUp hpc hcur' =>
      obtain rfl := Option.some.inj (hcur.symm.trans hcur')
      exact ⟨Or.inr hcur, Or.inr rfl⟩
  | _ => exact ⟨Or.inr hcur, Or.inl rfl⟩

/-- The ways on from a place between setting the bit and adding the length. -/
theorem Worker.Triggers.still {c : Current} {st : FileState} {v : Worker}
    (hcur : w.current = some c) (hpc : w.pc.adding = true) (hv : v.current = some c)
    (hv' : v.pc.adding = true) (he : e.Bypasses) (l : Ledger) :
    w.Triggers p c.fileId st (e.onFile c.fileId st) v l l := by
  refine .elsewhere (he.bitmap c.fileId st) (he.since c.fileId st) ?_ fun hreset => ?_
  · rw [unadded_self hcur hpc, unadded_self hv hv']
  · refine absurd hreset (not_resetting ?_ c.fileId)
    rintro heq
    rw [heq] at hpc
    cases hpc

/-- A step on a chunk of the file itself, at a place that matters. -/
theorem Worker.triggers_own {c : Current} {st : FileState} (hcur : w.current = some c)
    (hof : c.Of st) (haside : w.pc.aside = false)
    (h : w.stepChunk p env c st w.pc io = some (w', e)) (l : Ledger) :
    w.Triggers p c.fileId st (e.onFile c.fileId st) w' l (l.afterWorker p st c w.pc) := by
  have hreset : w.pc ≠ .checkpoint .snapshot → ¬ w.Resetting c.fileId :=
    fun hne => not_resetting hne c.fileId
  cases hpc : w.pc with
  | mark =>
      have hun : w.unadded c.fileId = 0 := unadded_of_pc (by rw [hpc]; rfl) _
      rw [hpc] at h
      cases io with
      | next =>
          simp only [stepChunk] at h
          cases hset : st.bitmap.set c.chunkIndex with
          | error err =>
              rw [hset] at h
              cases h
              have hover : ¬ c.chunkIndex < st.bitmap.count := fun hlt => by
                obtain ⟨b, hb⟩ := ChunkBitmap.set_ok hlt
                rw [hset] at hb
                cases hb
              rw [Ledger.afterWorker, if_neg hover]
              exact .elsewhere rfl rfl (by rw [hun]; exact unadded_of_pc rfl _)
                fun hr => absurd hr (hreset (by rw [hpc]; simp))
          | ok b =>
              rw [hset] at h
              cases h
              rw [Ledger.afterWorker, if_pos (ChunkBitmap.lt_count_of_set hset)]
              refine .marks hof ?_ ?_ hun ?_ (hreset (by rw [hpc]; simp))
              · simp [Effect.onFile, hset]
              · simp [Effect.onFile, hset]
              · simp [unadded, hcur, WorkerPc.adding]
      | write n => cases h
      | fail => cases h
  | count complete =>
      rw [hpc] at h
      cases io with
      | next =>
          cases h
          refine .still hcur (by rw [hpc]; rfl) ?_ ?_ ⟨by simp, by simp⟩ l
          · exact hcur
          · rfl
      | write n => cases h
      | fail => cases h
  | report complete done =>
      rw [hpc] at h
      cases io with
      | next =>
          cases h
          refine .still hcur (by rw [hpc]; rfl) ?_ ?_ ⟨by simp, by simp⟩ l
          · exact hcur
          · cases complete <;> rfl
      | write n => cases h
      | fail => cases h
  | announce =>
      rw [hpc] at h
      cases io with
      | next =>
          cases h
          refine .still hcur (by rw [hpc]; rfl) ?_ ?_ ⟨by simp, by simp⟩ l
          · exact hcur
          · rfl
      | write n => cases h
      | fail => cases h
  | due =>
      have hun : w.unadded c.fileId = c.expectedLen := unadded_self hcur (by rw [hpc]; rfl)
      rw [hpc] at h
      cases io with
      | next =>
          simp only [stepChunk] at h
          by_cases hoff : p.checkpointBytes = 0
          · rw [if_pos hoff] at h
            cases h
            rw [Ledger.afterWorker, if_pos hoff]
            exact .skips hoff rfl rfl rfl (hreset (by rw [hpc]; simp))
          · rw [if_neg hoff] at h
            cases h
            rw [Ledger.afterWorker, if_neg hoff]
            refine .adds hoff ?_ ?_ hun ?_ (hreset (by rw [hpc]; simp))
            · simp [Effect.onFile]
            · simp [Effect.onFile]
            · split
              · rfl
              · exact unadded_of_pc rfl _
      | write n => cases h
      | fail => cases h
  | reset =>
      have hun : w.unadded c.fileId = 0 := unadded_of_pc (by rw [hpc]; rfl) _
      rw [hpc] at h
      cases io with
      | next =>
          cases h
          refine .resets (by simp [Effect.onFile]) (by simp [Effect.onFile]) ?_ ?_
          · rw [hun]
            exact unadded_of_pc rfl _
          · simp [Resetting, checkpoint?, hcur]
      | write n => cases h
      | fail => cases h
  | checkpoint cp =>
      rw [hpc] at h haside
      cases cp with
      | snapshot =>
          have hun : w.unadded c.fileId = 0 := unadded_of_pc (by rw [hpc]; rfl) _
          cases io with
          | next =>
              simp only [stepChunk, checkpointStep] at h
              split at h
              · cases h
              · next hgo =>
                  split at hgo <;> cases hgo
                  cases h
                  exact .snapshots rfl rfl (by rw [hun]; exact unadded_of_pc rfl _)
              · next hdone =>
                  split at hdone <;> cases hdone
                  cases h
                  exact .snapshots rfl rfl (by rw [hun]; exact unadded_of_pc rfl _)
          | write n => cases h
          | fail => cases h
      | _ => cases haside
  | _ =>
      rw [hpc] at haside
      cases haside

/-- **Every worker step is one of the six.** -/
theorem Worker.step_triggers (h : w.step p env io = some (w', e))
    (hfits : w.Fits p.blake3 env.files) {id : UInt64} {st : FileState}
    (hst : env.files.lookup id = some st) (l : Ledger) :
    w.Triggers p id st (e.onFile id st) w' l (l.byWorker p id st w) := by
  have hmove := Worker.step_moves h
  by_cases haside : w.pc.aside = true
  · -- a place of no concern
    obtain ⟨hbypass, hadding⟩ := hmove.of_aside haside
    have hsame : l.byWorker p id st w = l := by
      unfold Ledger.byWorker
      split
      · rfl
      · split
        · unfold Ledger.afterWorker
          split <;> simp_all [WorkerPc.aside]
        · rfl
    rw [hsame]
    refine .elsewhere (hbypass.bitmap id st) (hbypass.since id st) ?_ fun hreset => ?_
    · rw [unadded_of_pc hadding, unadded_of_pc (WorkerPc.adding_of_aside haside)]
    · refine absurd hreset (not_resetting ?_ id)
      rintro heq
      rw [heq] at haside
      cases haside
  · obtain ⟨c, s, hcur, hs, hchunk⟩ := Worker.step_inside (by
      intro hheader
      rw [hheader] at haside
      exact haside rfl) h
    obtain ⟨hcur', htarget⟩ := hmove.keeps_chunk hcur
    by_cases hid : c.fileId = id
    · subst hid
      obtain rfl := Option.some.inj (hst.symm.trans hs)
      have hledger : l.byWorker p c.fileId st w = l.afterWorker p st c w.pc := by
        simp [Ledger.byWorker, hcur]
      rw [hledger]
      obtain ⟨s, hs', hof⟩ := hfits.current c hcur
      obtain rfl := Option.some.inj (hst.symm.trans hs')
      exact Worker.triggers_own hcur hof (by simpa using haside) hchunk l
    · -- a step on another file
      have hledger : l.byWorker p id st w = l := by simp [Ledger.byWorker, hcur, hid]
      have hfile : e.onFile id st = st := Effect.onFile_of_target_ne st (by
        rcases htarget with htarget | htarget
        · simp [htarget]
        · rw [htarget]
          exact fun heq => hid (Option.some.inj heq))
      rw [hledger, hfile]
      refine .elsewhere rfl rfl ?_ fun hreset => ?_
      · rw [unadded_of_ne hcur hid]
        rcases hcur' with hnone | hsome
        · simp [unadded, hnone]
        · exact unadded_of_ne hsome hid
      · obtain ⟨-, d, hd, hdid⟩ := Worker.checkpoint?_eq_some hreset
        obtain rfl := Option.some.inj (hcur.symm.trans hd)
        exact absurd hdid hid

end Steps

/-! ## Whole sessions -/

/-- What the ledger says of the file `st` and of the workers: what is marked is in the bitmap, the
    byte count is the sum since the last store, and, unless a snapshot is about to be taken, no more
    bytes are unsaved than have been added or are about to be. -/
structure Balanced (p : Params) (id : UInt64) (workers : List Worker) (st : FileState) (l : Ledger) :
    Prop where
  marked : ∀ i ∈ l.marked, st.bitmap.has i = true
  since : st.sinceCheckpoint.toNat = l.added % 2 ^ 64
  owed_le : (workers.map (Worker.unadded id)).sum ≤ l.unadded
  owed_eq : p.checkpointBytes ≠ 0 → (workers.map (Worker.unadded id)).sum = l.unadded
  saved : (∃ w ∈ workers, w.Resetting id) ∨
    l.unsavedBytes st.layout ≤ l.added + l.unadded

namespace Balanced

variable {p : Params} {id : UInt64} {workers : List Worker} {st st' : FileState} {l l' : Ledger}
  {w w' : Worker} {i : Nat}

/-- Another worker is about to take a snapshot still. -/
theorem resetting_set (hw : workers[i]? = some w) (hkeep : w.Resetting id → w'.Resetting id)
    (h : ∃ v ∈ workers, v.Resetting id) : ∃ v ∈ workers.set i w', v.Resetting id := by
  obtain ⟨v, hv, hreset⟩ := h
  obtain ⟨j, hj⟩ := List.mem_iff_getElem?.1 hv
  have hlt : i < workers.length := (List.getElem?_eq_some_iff.1 hw).1
  by_cases hij : i = j
  · subst hij
    obtain rfl := Option.some.inj (hw.symm.trans hj)
    exact ⟨w', List.mem_set hlt w', hkeep hreset⟩
  · exact ⟨v, List.mem_of_getElem? (by rw [List.getElem?_set_ne hij, hj]), hreset⟩

/-- The workers owe what they owed, and the ledger is what it was. -/
theorem congr {workers' : List Worker} (h : Balanced p id workers st l)
    (hbit : st'.bitmap = st.bitmap) (hsince : st'.sinceCheckpoint = st.sinceCheckpoint)
    (hlayout : st'.layout = st.layout)
    (howed : (workers'.map (Worker.unadded id)).sum = (workers.map (Worker.unadded id)).sum)
    (hreset : (∃ v ∈ workers, v.Resetting id) → ∃ v ∈ workers', v.Resetting id) :
    Balanced p id workers' st' l where
  marked := fun i hi => by rw [hbit, h.marked i hi]
  since := by rw [hsince, h.since]
  owed_le := howed ▸ h.owed_le
  owed_eq := fun hon => howed ▸ h.owed_eq hon
  saved := by
    rw [hlayout]
    exact h.saved.imp hreset fun hle => hle

/-- Everything marked is in a snapshot of the bitmap. -/
theorem snapshot (h : Balanced p id workers st l) :
    Balanced p id workers st { l with snapshot := some st.bitmap } where
  marked := h.marked
  since := h.since
  owed_le := h.owed_le
  owed_eq := h.owed_eq
  saved := by
    rw [Ledger.unsavedBytes_snapshot h.marked]
    exact Or.inr (Nat.zero_le _)

/-- **A worker's step keeps the balance.** -/
theorem worker (h : Balanced p id workers st l) (hwf : st.bitmap.Wf)
    (hlayout : st'.layout = st.layout) (hw : workers[i]? = some w)
    (ht : w.Triggers p id st st' w' l l') : Balanced p id (workers.set i w') st' l' := by
  have hsum := List.sum_map_set hw w' (Worker.unadded id)
  cases ht with
  | elsewhere hbit hsince hun hreset =>
      refine h.congr hbit hsince hlayout ?_ (resetting_set hw hreset)
      rw [hun] at hsum
      exact Nat.add_right_cancel hsum
  | @marks c hof hset hsince hun hun' hreset =>
      have hmark := Ledger.unsavedBytes_mark (l := l) hof.index (l.unadded + c.expectedLen)
      have hle := h.owed_le
      refine ⟨fun j hj => ?_, by rw [hsince, h.since], ?_, fun hon => ?_, ?_⟩
      · rw [ChunkBitmap.has_of_set hwf hset]
        rcases List.mem_cons.1 hj with rfl | hj
        · simp
        · simp [h.marked j hj]
      · show _ ≤ l.unadded + c.expectedLen
        omega
      · have heq := h.owed_eq hon
        show _ = l.unadded + c.expectedLen
        omega
      · refine h.saved.imp (resetting_set hw fun hr => absurd hr hreset) fun hsaved => ?_
        have hlen := hof.len_eq
        rw [hlayout]
        show Ledger.unsavedBytes _ st.layout ≤ l.added + (l.unadded + c.expectedLen)
        omega
  | @adds c hon hbit hsince hun hun' hreset =>
      have heq := h.owed_eq hon
      have hlen : c.expectedLen ≤ l.unadded := by omega
      refine ⟨fun j hj => by rw [hbit, h.marked j hj], ?_, ?_, fun _ => ?_, ?_⟩
      · rw [hsince, UInt64.toNat_add, UInt64.toNat_ofNat', h.since]
        show _ = (l.added + c.expectedLen) % 2 ^ 64
        omega
      · show _ ≤ l.unadded - c.expectedLen
        omega
      · show _ = l.unadded - c.expectedLen
        omega
      · refine h.saved.imp (resetting_set hw fun hr => absurd hr hreset) fun hsaved => ?_
        rw [hlayout]
        show l.unsavedBytes st.layout ≤ l.added + c.expectedLen + (l.unadded - c.expectedLen)
        omega
  | skips hoff hbit hsince hun' hreset =>
      have hle := h.owed_le
      refine ⟨fun j hj => by rw [hbit, h.marked j hj], by rw [hsince, h.since], by omega,
        fun hon => absurd hoff hon, ?_⟩
      rw [hlayout]
      exact h.saved.imp (resetting_set hw fun hr => absurd hr hreset) fun hsaved => hsaved
  | resets hbit hsince hun hreset =>
      have hlt : i < workers.length := (List.getElem?_eq_some_iff.1 hw).1
      rw [hun] at hsum
      have howed := Nat.add_right_cancel hsum
      exact ⟨fun j hj => by rw [hbit, h.marked j hj], by rw [hsince]; rfl, howed ▸ h.owed_le,
        fun hon => howed ▸ h.owed_eq hon, Or.inl ⟨w', List.mem_set hlt w', hreset⟩⟩
  | snapshots hbit hsince hun =>
      rw [hun] at hsum
      have howed := Nat.add_right_cancel hsum
      refine ⟨fun j hj => by rw [hbit, h.marked j hj], by rw [hsince, h.since], howed ▸ h.owed_le,
        fun hon => howed ▸ h.owed_eq hon, Or.inr ?_⟩
      rw [Ledger.unsavedBytes_snapshot h.marked]
      exact Nat.zero_le _

end Balanced

/-- The ledger of the file `id` is balanced against the session. -/
structure Session.Ledgered (p : Params) (id : UInt64) (s : Session) (l : Ledger) : Prop where
  fits : s.Fits p.blake3
  wf : s.env.files.Wf
  balanced : ∀ st, s.env.files.lookup id = some st → Balanced p id s.workers st l

/-- **Every step keeps the balance.** -/
theorem Session.Ledgered.step {p : Params} {id : UInt64} {s s' : Session} {l : Ledger}
    {a : SessionAct} (h : s.Ledgered p id l) (hstep : s.step p a = some s') :
    s'.Ledgered p id (l.after p id s a) := by
  obtain ⟨e, heff, hmove⟩ := Session.step_moves hstep
  have henv := hmove.env_eq
  refine ⟨hmove.fits h.fits, henv ▸ h.wf.apply e, fun st' hst' => ?_⟩
  rw [henv] at hst'
  obtain ⟨st, hst, rfl, hsame⟩ := Env.lookup_apply hst'
  have hbal := h.balanced st hst
  have hwf := h.wf id st hst
  -- a step that changes neither the workers' places nor the file
  have harrives : ∀ {i : Nat} {w w' : Worker}, s.workers[i]? = some w → w'.pc = w.pc →
      w'.current = w.current → Balanced p id (s.workers.set i w') st l := by
    intro i w w' hw hpc hcur
    refine hbal.congr rfl rfl rfl ?_ (Balanced.resetting_set hw fun hr => ?_)
    · have hsum := List.sum_map_set hw w' (Worker.unadded id)
      have hsameun : w'.unadded id = w.unadded id := by
        rw [Worker.unadded, Worker.unadded, hpc, hcur]
      rw [hsameun] at hsum
      exact Nat.add_right_cancel hsum
    · rwa [Worker.Resetting, Worker.checkpoint?, hpc, hcur]
  cases Session.stepEffect_cases heff with
  | deliver hw hopen => exact harrives hw rfl rfl
  | close hw hopen => exact harrives hw rfl rfl
  | @worker i io w w' e hw hws =>
      have hafter : l.after p id s (.worker i io) = l.byWorker p id st w := by
        simp only [Ledger.after, hst, hw, Option.elim_some]
      rw [hafter]
      exact hbal.worker hwf hsame.layout hw
        (Worker.step_triggers hws (h.fits w (List.mem_of_getElem? hw)) hst l)
  | accept hmain =>
      refine hbal.congr rfl rfl rfl (by simp [Worker.fresh, Worker.unadded]) ?_
      rintro ⟨v, hv, hr⟩
      exact ⟨v, List.mem_append_left _ hv, hr⟩
  | refuse hmain => exact hbal
  | join hmain hended horder hnext => exact hbal
  | @main io main e hms =>
      have hbypass := (Session.mainStep_moves hms).bypasses
      have hkeep : ∀ l', Balanced p id s.workers st l' →
          Balanced p id s.workers (e.onFile id st) l' := fun l' hl' =>
        hl'.congr (hbypass.bitmap id st) (hbypass.since id st) hsame.layout rfl fun hr => hr
      simp only [Ledger.after, hst]
      split
      · exact hkeep _ hbal.snapshot
      · exact hkeep _ hbal

/-- A session begins with nothing added. -/
theorem since_offerLoop {blake3 : Blake3} {config : Config} {outputDir : FilePath}
    {chunkSize : UInt32} {disk : FileSystem} {entries : List (FileEntry × EntryIo)} {st : OfferState}
    (hoffer : offerLoop blake3 config outputDir chunkSize (.init disk) entries = .ok st) :
    ∀ id fs, st.files.lookup id = some fs → fs.sinceCheckpoint = 0 := by
  refine offerLoop_induct (P := fun _ st => ∀ id fs, st.files.lookup id = some fs →
    fs.sinceCheckpoint = 0) ?_ ?_ hoffer
  · intro id fs hfs
    cases hfs
  · intro pre x st₀ c st₁ hpre hcheck hopen id fs hfs
    obtain ⟨sink, bitmap, -, -, hfiles, -⟩ := openEntry_ok hopen
    rw [hfiles] at hfs
    by_cases hid : id = x.1.fileId
    · subst hid
      rw [AList.lookup_insert] at hfs
      obtain rfl := Option.some.inj hfs
      rfl
    · rw [AList.lookup_insert_ne hid] at hfs
      exact hpre id fs hfs

theorem Session.ledgered_start {p : Params} {config : Config} {outputDir : FilePath}
    {chunkSize : UInt32} {disk : FileSystem} {entries : List (FileEntry × EntryIo)} {st : OfferState}
    (hoffer : offerLoop p.blake3 config outputDir chunkSize (.init disk) entries = .ok st)
    (streamCount : UInt32) (id : UInt64) :
    (Session.start st streamCount).Ledgered p id .empty := by
  have hacc := accepted_offerLoop hoffer
  refine ⟨fun w hw => absurd hw List.not_mem_nil, fun id fs hfs => hacc.wf hfs, fun fs hfs => ?_⟩
  refine ⟨by simp [Ledger.empty], ?_, by simp [Session.start], by simp [Session.start, Ledger.empty],
    Or.inr ?_⟩
  · rw [since_offerLoop hoffer id fs hfs]
    rfl
  · have hnone : (List.range fs.layout.count).filter Ledger.empty.unsaved = [] := by
      rw [List.filter_eq_nil_iff]
      intro i _ hi
      cases hi
    rw [Ledger.unsavedBytes, hnone]
    exact Nat.zero_le _

/-- What the trigger of the file `fs` has lost sight of, in a state of a session: nothing, unless a
    snapshot is about to be taken, but the count it goes by has 64 bits. -/
structure Session.TriggerSound (p : Params) (id : UInt64) (s : Session) (fs : FileState)
    (l : Ledger) : Prop where
  bounded : (∀ w ∈ s.workers, ¬ w.Resetting id) →
    l.unsavedBytes fs.layout ≤ l.added + l.unadded
  counted : fs.sinceCheckpoint.toNat = l.added % 2 ^ 64
  unwrapped : (∀ w ∈ s.workers, ¬ w.Resetting id) → l.added < 2 ^ 64 →
    l.unsavedBytes fs.layout ≤ fs.sinceCheckpoint.toNat + l.unadded
  /-- the workers that have set a bit and not added its length -/
  pending : p.checkpointBytes ≠ 0 → l.unadded = (s.workers.map (Worker.unadded id)).sum
  /-- the snapshot that follows a store has everything -/
  covered : ∀ (i : Nat) w io s', s.workers[i]? = some w → w.Resetting id →
    s.step p (.worker i io) = some s' →
    (l.after p id s (.worker i io)).unsavedBytes fs.layout = 0

/-- **The checkpoint trigger loses no bytes.** In every state of every run over an accepted offer in
    which no worker is between its store of zero and its snapshot, the chunks set by workers and not
    contained in the most recent snapshot are no longer than what has been added since the last store
    and what is still to be added. The byte count is that sum up to multiples of 2^64. -/
theorem trigger_loses_no_bytes {p : Params} {config : Config} {outputDir : FilePath}
    {chunkSize : UInt32} {disk : FileSystem} {entries : List (FileEntry × EntryIo)} {st : OfferState}
    (hoffer : offerLoop p.blake3 config outputDir chunkSize (.init disk) entries = .ok st)
    {streamCount : UInt32} {as : List SessionAct} {s : Session}
    (hrun : (Session.start st streamCount).runs p as = some s) {id : UInt64} {fs : FileState}
    (hfs : s.env.files.lookup id = some fs) :
    s.TriggerSound p id fs ((Session.start st streamCount).ledger p id as) := by
  have hledgered : s.Ledgered p id ((Session.start st streamCount).ledger p id as) :=
    Run.invariant_carry (Ledger.after p id) (fun _ _ _ _ h hstep => h.step hstep)
      (Session.ledgered_start hoffer streamCount id) hrun
  generalize (Session.start st streamCount).ledger p id as = l at hledgered
  have hbal := hledgered.balanced fs hfs
  have hbounded : (∀ w ∈ s.workers, ¬ w.Resetting id) →
      l.unsavedBytes fs.layout ≤ l.added + l.unadded := fun hidle =>
    hbal.saved.resolve_left fun ⟨w, hw, hreset⟩ => hidle w hw hreset
  refine ⟨hbounded, hbal.since, fun hidle hlt => ?_, fun hon => (hbal.owed_eq hon).symm,
    fun i w io s' hw hreset hstep => ?_⟩
  · rw [hbal.since, Nat.mod_eq_of_lt hlt]
    exact hbounded hidle
  · obtain ⟨hpc, c, hcur, hid⟩ := Worker.checkpoint?_eq_some hreset
    have hafter : l.after p id s (.worker i io) = { l with snapshot := some fs.bitmap } := by
      simp [Ledger.after, hfs, hw, Ledger.byWorker, hcur, hid, hpc, Ledger.afterWorker]
    rw [hafter]
    exact Ledger.unsavedBytes_snapshot hbal.marked

/-! ## A byte count that wraps around -/

/-- A threshold no even byte count reaches. -/
def oddThreshold : Params :=
  { blake3 := shortFileHash, totalBytes := 2, checkpointBytes := 18446744073709551615 }

/-- A file `a` of two bytes, whose chunk is one that `shortFileHash` does not list. -/
def twoByteOffer : List (FileEntry × EntryIo) :=
  [({ fileId := 0, relativePath := "a", sizeBytes := 2, rootHash := List.replicate 32 0,
      chunkHashes := List.replicate 32 0 }, allCallsSucceed)]

def twoBytes : List UInt8 :=
  [0x41, 0x42]

def twoByteFrame : List UInt8 :=
  (FrameHeader.new .fileData 0 0 2).encode ++ twoBytes

def twoByteChunk : Current :=
  { fileId := 0, chunkIndex := 0, start := 0, expectedLen := 2 }

def twoByteLayout : ChunkLayout :=
  { fileSize := 2, chunkSize := 65536, count := 1, fileSize_lt := UInt64.toNat_lt 2,
    min_le := Nat.le_refl 65536, le_max := Nat.le_of_ble_eq_true rfl, powerOfTwo := rfl,
    count_eq := rfl }

/-- The file of the offer, with its one bit clear or set. -/
structure TwoByteFile (fs : FileState) (since : UInt64) : Prop where
  layout : fs.layout = twoByteLayout
  hashes : fs.chunkHashes = [⟨List.replicate 32 0, rfl⟩]
  set : fs.bitmap.set 0 = .ok oneChunkHeld
  since : fs.sinceCheckpoint = since

/-- A session with the one worker `w`, the file `fs`, and no snapshot so far; `marked` where the
    chunk has been set. -/
structure Sole (s : Session) (w : Worker) (fs : FileState) (marked : Bool) (l : Ledger) : Prop where
  workers : s.workers = [w]
  file : s.env.files.lookup 0 = some fs
  marked : marked = true → 0 ∈ l.marked
  snapshot : l.snapshot = none

/-- A step forgets nothing that is marked. -/
theorem Ledger.marked_byWorker {p : Params} {id : UInt64} {st : FileState} {l : Ledger} (w : Worker)
    {i : Nat} (hi : i ∈ l.marked) : i ∈ (l.byWorker p id st w).marked := by
  unfold byWorker
  split
  · exact hi
  · split
    · unfold afterWorker
      split
      · split
        · exact List.mem_cons_of_mem _ hi
        · exact hi
      · split <;> exact hi
      · exact hi
      · exact hi
      · exact hi
    · exact hi

theorem Ledger.snapshot_byWorker {p : Params} {id : UInt64} {st : FileState} {l : Ledger}
    {w : Worker} (hpc : w.pc ≠ .checkpoint .snapshot) :
    (l.byWorker p id st w).snapshot = l.snapshot := by
  unfold byWorker
  split
  · rfl
  · split
    · unfold afterWorker
      split
      · split <;> rfl
      · split <;> rfl
      · rfl
      · next heq => exact absurd heq hpc
      · rfl
    · rfl

/-- From `s` the session gets to where the worker is `w`, whatever becomes of the rest. -/
def LeadsTo (s : Session) (l : Ledger) (w : Worker) (fs : FileState) (marked : Bool) : Prop :=
  ∃ as s', s.runs oddThreshold as = some s' ∧
    Sole s' w fs marked (Run.carry (Session.step oddThreshold) (Ledger.after oddThreshold 0) l s as)

namespace LeadsTo

variable {s : Session} {l : Ledger} {w w' : Worker} {fs fs' : FileState} {marked : Bool}

/-- The steps of the worker that take no snapshot, from where it is. -/
theorem exists_env (h : LeadsTo s l w fs marked) (hpc : w.pc ≠ .checkpoint .snapshot) :
    ∃ env : Env, env.files.lookup 0 = some fs ∧ ∀ (io : IoAct) (w' : Worker) (e : Effect)
      (marked' : Bool), w.step oddThreshold env io = some (w', e) →
      (marked' = true → marked = true ∨ ∃ c, w.current = some c ∧ c.fileId = 0 ∧
        c.chunkIndex = 0 ∧ w.pc = .mark ∧ 0 < fs.bitmap.count) →
      LeadsTo s l w' (e.onFile 0 fs) marked' := by
  obtain ⟨as, m, hrun, hsole⟩ := h
  refine ⟨m.env, hsole.file, fun io w' e marked' hw hmark => ?_⟩
  have hstep : m.step oddThreshold (.worker 0 io)
      = some { m with env := m.env.apply e, workers := [w'] } := by
    simp [Session.step, Session.stepEffect, hsole.workers, hw]
  refine ⟨as ++ [.worker 0 io], _, Run.runs_snoc hrun hstep, ?_⟩
  rw [Run.carry_append _ hrun]
  generalize Run.carry (Session.step oddThreshold) (Ledger.after oddThreshold 0) l s as = k at hsole
  simp only [Run.carry, hstep, Option.elim_some]
  refine ⟨rfl, Env.lookup_apply_of hsole.file, fun hm => ?_, ?_⟩
  · simp only [Ledger.after, hsole.file, hsole.workers, List.getElem?_cons_zero, Option.elim_some]
    rcases hmark hm with hm | ⟨c, hcur, hid, hindex, hmarkpc, hlt⟩
    · exact Ledger.marked_byWorker w (hsole.marked hm)
    · simp [Ledger.byWorker, hcur, hid, Ledger.afterWorker, hmarkpc, hindex, hlt]
  · simp only [Ledger.after, hsole.file, hsole.workers, List.getElem?_cons_zero, Option.elim_some]
    rw [Ledger.snapshot_byWorker hpc, hsole.snapshot]

/-- A step of the worker that takes no snapshot. -/
theorem worker (h : LeadsTo s l w fs marked) (io : IoAct)
    (hpc : w.pc ≠ .checkpoint .snapshot) {w' : Worker} {fs' : FileState}
    (hstep : ∀ env : Env, env.files.lookup 0 = some fs → ∃ e,
      w.step oddThreshold env io = some (w', e) ∧ e.onFile 0 fs = fs')
    {marked' : Bool} (hmark : marked' = true → marked = true ∨ ∃ c, w.current = some c ∧
      c.fileId = 0 ∧ c.chunkIndex = 0 ∧ w.pc = .mark ∧ 0 < fs.bitmap.count) :
    LeadsTo s l w' fs' marked' := by
  obtain ⟨env, hfile, hgo⟩ := h.exists_env hpc
  obtain ⟨e, hw, rfl⟩ := hstep env hfile
  exact hgo io w' e marked' hw hmark

/-- The next frame arrives. -/
theorem deliver (h : LeadsTo s l .fresh fs marked) :
    LeadsTo s l { Worker.fresh with inbox := twoByteFrame } fs marked := by
  obtain ⟨as, m, hrun, hsole⟩ := h
  have hstep : m.step oddThreshold (.deliver 0 twoByteFrame)
      = some { m with workers := [{ Worker.fresh with inbox := twoByteFrame }] } := by
    simp [Session.step, Session.stepEffect, hsole.workers, Worker.fresh]
  refine ⟨as ++ [.deliver 0 twoByteFrame], _, Run.runs_snoc hrun hstep, ?_⟩
  rw [Run.carry_append _ hrun]
  simp only [Run.carry, hstep, Option.elim_some]
  exact ⟨rfl, hsole.file, hsole.marked, hsole.snapshot⟩

theorem readsFrame {files : Files} (hfile : files.lookup 0 = some fs)
    (hlayout : fs.layout = twoByteLayout) :
    ({ Worker.fresh with inbox := twoByteFrame } : Worker).readHeader files
      = some { Worker.fresh with
          inbox := twoBytes, current := some twoByteChunk, pc := .payload 2 } := by
  have hlen : HEADER_LEN ≤ twoByteFrame.length := by decide
  have hdecode : FrameHeader.decode (twoByteFrame.take HEADER_LEN)
      = .ok (FrameHeader.new .fileData 0 0 2) := by decide +kernel
  have hstart : startChunk fs (FrameHeader.new .fileData 0 0 2) = .ok twoByteChunk := by
    unfold startChunk
    rw [hlayout]
    decide +kernel
  have hfile' : files.lookup (FrameHeader.new .fileData 0 0 2).fileId = some fs := hfile
  have hadmit : admitFrame twoByteChunk 0 (FrameHeader.new .fileData 0 0 2) = .ok () := by
    decide +kernel
  have hacc : acceptFrame files none [] (FrameHeader.new .fileData 0 0 2)
      = .ok (twoByteChunk, []) := by
    simp only [acceptFrame, hfile', hstart, Except.map, List.length_nil, hadmit]
  have htype : (FrameHeader.new .fileData 0 0 2).msgType = .fileData := rfl
  have hdrop : twoByteFrame.drop HEADER_LEN = twoBytes := by decide
  have hcur : Worker.fresh.current = none := rfl
  have hbuf : Worker.fresh.buf = [] := rfl
  unfold Worker.readHeader
  simp only [if_pos hlen, hdecode, htype, hcur, hbuf, hacc, hdrop]
  rfl

/-- The worker in the middle of its chunk. -/
def holding (pc : WorkerPc) : Worker :=
  { inbox := [], closed := none, buf := twoBytes, current := some twoByteChunk, pc := pc }

/-- A step of the worker on its chunk. -/
theorem inside {pc : WorkerPc} (h : LeadsTo s l (holding pc) fs marked) (io : IoAct)
    (hpc : pc.aside = true ∨ pc.adding = true) (hheader : pc ≠ .header)
    (hended : ∀ r, pc ≠ .ended r) {w' : Worker} {fs' : FileState}
    (hstep : ∀ env : Env, ∃ e, (holding pc).stepChunk oddThreshold env twoByteChunk fs pc io
      = some (w', e) ∧ e.onFile 0 fs = fs') : LeadsTo s l w' fs' marked := by
  refine h.worker io ?_ (fun env hfile => ?_) Or.inl
  · rintro heq
    have hpc' : pc = .checkpoint .snapshot := heq
    subst hpc'
    rcases hpc with hpc | hpc <;> cases hpc
  · obtain ⟨e, hchunk, he⟩ := hstep env
    refine ⟨e, ?_, he⟩
    have hfile' : env.files.lookup twoByteChunk.fileId = some fs := hfile
    unfold Worker.step
    split
    · next r heq => exact absurd heq (hended r)
    · next heq => exact absurd heq hheader
    · simp only [holding, hfile']
      exact hchunk

/-- **One chunk more**: it is received, written, marked and counted, and nothing is due. -/
theorem chunk (h : LeadsTo s l .fresh fs marked) {since : UInt64} (hfs : TwoByteFile fs since)
    (hlt : since + 2 < 18446744073709551615) :
    ∃ fs', TwoByteFile fs' (since + 2) ∧ LeadsTo s l .fresh fs' true := by
  have hread : LeadsTo s l
      { Worker.fresh with inbox := twoBytes, current := some twoByteChunk, pc := .payload 2 } fs
      marked := by
    refine h.deliver.worker .next (by simp [Worker.fresh]) (fun env hfile => ⟨.quiet, ?_, rfl⟩) Or.inl
    simp only [Worker.step, if_true, readsFrame hfile hfs.layout, Option.map_some]
    rfl
  have hfull : LeadsTo s l (holding .verify) fs marked := by
    refine hread.worker .next (by simp) (fun env hfile => ⟨.quiet, ?_, rfl⟩) Or.inl
    have hfile' : env.files.lookup twoByteChunk.fileId = some fs := hfile
    simp only [Worker.step, hfile']
    rfl
  have hverified : LeadsTo s l (holding (.write 0)) fs marked := by
    refine hfull.inside .next (Or.inl rfl) (by simp) (by simp) fun env => ⟨.quiet, ?_, rfl⟩
    have hexpected : fs.chunkHashes[twoByteChunk.chunkIndex]? = some ⟨List.replicate 32 0, rfl⟩ := by
      rw [hfs.hashes]
      rfl
    have hhash : hashChunk oddThreshold.blake3 (holding .verify).buf
        = ⟨List.replicate 32 0, rfl⟩ := by
      decide +kernel
    simp only [Worker.stepChunk, hexpected]
    rw [if_neg (not_not.2 hhash)]
    rfl
  have hwriting : LeadsTo s l (holding (.write 2)) fs marked :=
    hverified.inside (.write 2) (Or.inl rfl) (by simp) (by simp) fun env => ⟨_, rfl, rfl⟩
  have hwritten : LeadsTo s l (holding .mark) fs marked :=
    hwriting.inside .next (Or.inl rfl) (by simp) (by simp) fun env => ⟨_, rfl, rfl⟩
  have hcount : 0 < fs.bitmap.count := ChunkBitmap.lt_count_of_set hfs.set
  have hmarked : LeadsTo s l (holding (.count true)) { fs with bitmap := oneChunkHeld } true := by
    refine hwritten.worker .next (by simp [holding]) (fun env hfile => ⟨.setBit 0 0, ?_, ?_⟩)
      fun _ => Or.inr ⟨twoByteChunk, rfl, rfl, rfl, rfl, hcount⟩
    · have hfile' : env.files.lookup twoByteChunk.fileId = some fs := hfile
      have hset : fs.bitmap.set twoByteChunk.chunkIndex = .ok oneChunkHeld := hfs.set
      simp only [Worker.step, holding, hfile', Worker.stepChunk, hset]
      rfl
    · simp [Effect.onFile, hfs.set]
  have hcounted : LeadsTo s l (holding .announce) { fs with bitmap := oneChunkHeld } true := by
    obtain ⟨env, hfile, hgo⟩ := hmarked.exists_env (by simp [holding])
    have hfile' : env.files.lookup twoByteChunk.fileId = some { fs with bitmap := oneChunkHeld } :=
      hfile
    have hreport : LeadsTo s l (holding (.report true (env.counter + 2)))
        { fs with bitmap := oneChunkHeld } true := by
      refine hgo .next _ (.count 2) true ?_ Or.inl
      simp only [Worker.step, holding, hfile', Worker.stepChunk]
      rfl
    exact hreport.inside .next (Or.inr rfl) (by simp) (by simp) fun env => ⟨_, rfl, rfl⟩
  have hdue : LeadsTo s l (holding .due) { fs with bitmap := oneChunkHeld } true :=
    hcounted.inside .next (Or.inr rfl) (by simp) (by simp) fun env => ⟨_, rfl, rfl⟩
  have hheld : oneChunkHeld.set 0 = .ok oneChunkHeld := by decide
  refine ⟨{ fs with bitmap := oneChunkHeld, sinceCheckpoint := since + 2 },
    ⟨hfs.layout, hfs.hashes, hheld, rfl⟩, ?_⟩
  refine hdue.inside .next (Or.inr rfl) (by simp) (by simp)
      fun env => ⟨.setSince 0 (since + 2), ?_, ?_⟩
  · have hoff : ¬ oddThreshold.checkpointBytes = 0 := by decide
    have hsum : fs.sinceCheckpoint + UInt64.ofNat twoByteChunk.expectedLen = since + 2 := by
      rw [hfs.since]
      rfl
    have hbelow : since + 2 < oddThreshold.checkpointBytes := hlt
    simp only [Worker.stepChunk, if_neg hoff, hsum, if_pos hbelow]
    rfl
  · simp [Effect.onFile]

/-- The chunk over and over: an even byte count never is the threshold. -/
theorem chunks (h : LeadsTo s l .fresh fs marked) (hfs : TwoByteFile fs 0) (n : Nat) :
    ∃ fs', TwoByteFile fs' (UInt64.ofNat (2 * (n + 1))) ∧ LeadsTo s l .fresh fs' true := by
  induction n with
  | zero => exact h.chunk hfs (by decide)
  | succ n ih =>
      obtain ⟨fs', hfs', h'⟩ := ih
      have hsum : UInt64.ofNat (2 * (n + 1)) + 2 = UInt64.ofNat (2 * (n + 1 + 1)) := by
        rw [show 2 * (n + 1 + 1) = 2 * (n + 1) + 2 from by omega, UInt64.ofNat_add]
        rfl
      rw [← hsum]
      refine h'.chunk hfs' ?_
      rw [hsum, UInt64.lt_iff_toNat_lt, UInt64.toNat_ofNat']
      show 2 * (n + 1 + 1) % 2 ^ 64 < 18446744073709551615
      omega

end LeadsTo

/-- The first stream is accepted, and the file of the offer is as it was made. -/
theorem leadsTo_start : ∃ st fs,
    offerLoop oddThreshold.blake3 plainConfig ["out"] 65536 (.init .empty) twoByteOffer = .ok st ∧
      TwoByteFile fs 0 ∧ LeadsTo (Session.start st 1) .empty .fresh fs false := by
  obtain ⟨st, s, hst, hs, hcheck⟩ := exists_run oddThreshold twoByteOffer 1 [.accept]
    (fun _ s => (s.env.files.lookup 0).any fun fs : FileState =>
      decide (fs.layout = twoByteLayout ∧ fs.chunkHashes = [⟨List.replicate 32 0, rfl⟩] ∧
        (fs.bitmap.set 0).toOption = some oneChunkHeld ∧ fs.sinceCheckpoint = 0))
    (by decide +kernel)
  obtain ⟨fs, hfs, hfacts⟩ := (Option.any_eq_true _ _).1 hcheck
  obtain ⟨hlayout, hhashes, hset, hsince⟩ := of_decide_eq_true hfacts
  have hworkers : s.workers = [Worker.fresh] := by
    have haccept : (Session.start st 1).runs oddThreshold [.accept]
        = some { Session.start st 1 with workers := [Worker.fresh], main := .spawning 0 } := rfl
    rw [haccept] at hs
    exact (Option.some.inj hs) ▸ rfl
  refine ⟨st, fs, hst, ⟨hlayout, hhashes, toOption_eq_some.1 hset, hsince⟩, [.accept], s, hs,
      hworkers,
    hfs, by simp, ?_⟩
  obtain ⟨m, hm, -⟩ := Run.runs_cons_some hs
  simp only [Run.carry, hm, Option.elim_some, Ledger.after]
  rfl

/-- The chunk has arrived once. -/
theorem trigger_loses_no_bytes_twoBytes :
    ∃ (st : OfferState) (as : List SessionAct) (s : Session) (fs : FileState),
    offerLoop oddThreshold.blake3 plainConfig ["out"] 65536 (.init .empty) twoByteOffer = .ok st ∧
      TwoByteFile fs 2 ∧
      s.TriggerSound oddThreshold 0 fs ((Session.start st 1).ledger oddThreshold 0 as) := by
  obtain ⟨st, fs₀, hst, hfs₀, hstart⟩ := leadsTo_start
  obtain ⟨fs, hfs, as, s, hrun, hsole⟩ := hstart.chunk hfs₀ (by decide)
  exact ⟨st, as, s, fs, hst, hfs, trigger_loses_no_bytes (p := oddThreshold) hst hrun hsole.file⟩

/-- The chunk of a two-byte file arrives 2^63 times with a threshold the byte count steps over: it is
    zero again, and no snapshot has been taken. -/
theorem byte_count_wraps_around :
    ¬ ∀ (p : Params) (config : Config) (outputDir : FilePath) (chunkSize : UInt32)
      (disk : FileSystem) (entries : List (FileEntry × EntryIo)) (st : OfferState)
      (streamCount : UInt32) (as : List SessionAct) (s : Session) (id : UInt64) (fs : FileState),
      offerLoop p.blake3 config outputDir chunkSize (.init disk) entries = .ok st →
      (Session.start st streamCount).runs p as = some s → s.env.files.lookup id = some fs →
      (∀ w ∈ s.workers, ¬ w.Resetting id) →
      ((Session.start st streamCount).ledger p id as).unsavedBytes fs.layout
        ≤ fs.sinceCheckpoint.toNat + ((Session.start st streamCount).ledger p id as).unadded := by
  intro hclaim
  obtain ⟨st, fs₀, hst, hfs₀, hstart⟩ := leadsTo_start
  obtain ⟨fs, hfs, as, s, hrun, hsole⟩ := hstart.chunks hfs₀ (2 ^ 63 - 1)
  have hledgered : s.Ledgered oddThreshold 0 _ :=
    Run.invariant_carry (Ledger.after oddThreshold 0) (fun _ _ _ _ h hstep => h.step hstep)
      (Session.ledgered_start hst 1 0) hrun
  have hle := hclaim _ _ _ _ _ _ st 1 as s 0 fs hst hrun hsole.file (by
    intro w hw
    rw [hsole.workers, List.mem_singleton] at hw
    subst hw
    exact Worker.not_resetting (by simp [Worker.fresh]) 0)
  have howed := (hledgered.balanced fs hsole.file).owed_eq (by decide)
  rw [Session.ledger] at hle
  generalize Run.carry (Session.step oddThreshold) (Ledger.after oddThreshold 0) .empty
    (Session.start st 1) as = l at hsole howed hle
  have hunsaved : l.unsavedBytes fs.layout = 2 := by
    have hzero : l.unsaved 0 = true := by
      simp [Ledger.unsaved, hsole.snapshot, hsole.marked rfl]
    rw [Ledger.unsavedBytes, hfs.layout]
    show (((List.range 1).filter l.unsaved).map twoByteLayout.len).sum = 2
    rw [List.range_one, List.filter_cons_of_pos hzero]
    rfl
  have hunadded : l.unadded = 0 := by
    rw [← howed, hsole.workers]
    rfl
  rw [hunsaved, hunadded, hfs.since] at hle
  exact absurd hle (by decide +kernel)

end AetherLink
