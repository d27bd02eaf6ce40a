import AetherLink.Core.Recv.Task
import AetherLink.Proofs.Saving

set_option autoImplicit false

/-! # A session that has ended is silent

Past the join every worker has ended, and a worker that has ended takes no step. So `run` leaves no
worker behind unless it ends before the join: over a stream that fails, or by an abort. -/

namespace AetherLink

/-- Where `run` may have workers in their loops: it has not joined them yet. -/
def MainPc.beforeJoin : MainPc → Bool
  | .spawning _ => true
  | .joining => true
  | _ => false

/-- Unless `run` is still before the join, every worker has ended. -/
def Task.Joined (t : Task) : Prop :=
  t.dropped = true ∨ t.session.main.beforeJoin = false →
    ∀ w ∈ t.session.workers, ∃ r, w.pc = .ended r

theorem MainMove.beforeJoin {p : Params} {env : Env} {pc pc' : MainPc} {e : Effect}
    (h : MainMove p env pc pc' e) : pc'.beforeJoin = pc.beforeJoin := by
  cases h with
  | _ => rfl

theorem WorkerPc.ended_of_result? {pc : WorkerPc} (h : pc.result?.isSome = true) :
    ∃ r, pc = .ended r := by
  cases pc with
  | ended r => exact ⟨r, rfl⟩
  | _ => cases h

/-- An ended worker stays as it is when its stream still gets something. -/
theorem ended_set {workers : List Worker} {i : Nat} {w w' : Worker}
    (hall : ∀ v ∈ workers, ∃ r, v.pc = .ended r) (hw : workers[i]? = some w) (hpc : w'.pc = w.pc) :
    ∀ v ∈ workers.set i w', ∃ r, v.pc = .ended r := by
  intro v hv
  rcases List.mem_or_eq_of_mem_set hv with hv | rfl
  · exact hall v hv
  · exact hpc ▸ hall w (List.mem_of_getElem? hw)

theorem Task.Joined.session {p : Params} {t : Task} {act : SessionAct} {s : Session} (h : t.Joined)
    (hact : t.allows act = true) (hquiet : ¬ t.EndsOverWorkers (.session act))
    (hstep : t.session.step p act = some s) : Task.Joined { t with session := s } := by
  obtain ⟨e, he, -⟩ := Session.step_moves hstep
  intro hend
  cases Session.stepEffect_cases he with
  | deliver hw hopen => exact ended_set (h hend) hw rfl
  | close hw hopen => exact ended_set (h hend) hw rfl
  | worker hw hmove =>
      obtain ⟨r, hr⟩ := h hend _ (List.mem_of_getElem? hw)
      exact absurd hr ((Worker.step_moves hmove).running r)
  | accept hmain =>
      -- `run` goes on only if it has not been dropped, and it is then still before the join
      have hdropped : t.dropped = false := by simpa [allows] using hact
      rcases hend with hdrop | hjoin
      · rw [hdropped] at hdrop
        cases hdrop
      · cases hjoin
  | refuse hmain =>
      intro w hw
      refine WorkerPc.ended_of_result? (Bool.of_not_eq_false fun hrun => ?_)
      exact hquiet ⟨rfl, w, hw, hrun⟩
  | join hmain hended horder hnext => exact hended
  | main hmain =>
      have hmove := Session.mainStep_moves hmain
      exact h (hend.imp id fun hb => hmove.beforeJoin ▸ hb)

theorem Task.Joined.step {p : Params} {t t' : Task} {a : TaskAct} (h : t.Joined)
    (hquiet : ¬ t.EndsOverWorkers a) (hstep : t.step p a = some t') : t'.Joined := by
  cases a with
  | session act =>
      simp only [Task.step] at hstep
      split at hstep
      · next hact =>
          obtain ⟨s, hs, rfl⟩ := Option.map_eq_some_iff.1 hstep
          exact h.session hact hquiet hs
      · cases hstep
  | abort =>
      simp only [Task.step] at hstep
      split at hstep
      · rw [Option.some.injEq] at hstep
        subst hstep
        intro _ w hw
        refine WorkerPc.ended_of_result? (Bool.of_not_eq_false fun hrun => ?_)
        exact hquiet ⟨rfl, w, hw, hrun⟩
      · cases hstep

theorem Task.joined_start (st : OfferState) (streamCount : UInt32) :
    (Task.start st streamCount).Joined := by
  intro _ w hw
  cases hw

/-- **A session that has ended is silent**, unless it ended over workers still in their loops: then no
    worker takes any step at all. -/
theorem ended_session_silent {p : Params} {st : OfferState} {streamCount : UInt32}
    {as : List TaskAct} {t : Task}
    (hmeets : Run.Meets (Task.step p) (fun t a => ¬ t.EndsOverWorkers a)
      (Task.start st streamCount) as)
    (h : (Task.start st streamCount).runs p as = some t) (hended : t.Ended) : t.Silent p := by
  have hjoined : t.Joined :=
    Run.invariant_of (fun _ _ _ ht hquiet hstep => ht.step hquiet hstep)
      (Task.joined_start st streamCount) hmeets h
  have hall : ∀ w ∈ t.session.workers, ∃ r, w.pc = .ended r := by
    refine hjoined (hended.imp id ?_)
    rintro ⟨r, hr⟩
    rw [hr]
    rfl
  intro i io s' e he
  cases Session.stepEffect_cases he with
  | worker hw hmove =>
      obtain ⟨r, hr⟩ := hall _ (List.mem_of_getElem? hw)
      exact absurd hr ((Worker.step_moves hmove).running r)

/-! ## Runs -/

theorem MainPc.exists_of_hasReturned {pc : MainPc} (h : pc.hasReturned = true) :
    ∃ r, pc = .returned r := by
  cases pc with
  | returned r => exact ⟨r, rfl⟩
  | _ => cases h

/-- Runs of a task over an offer into the empty directory `out`, found by evaluation. -/
theorem exists_taskRun (p : Params) (entries : List (FileEntry × EntryIo)) (streamCount : UInt32)
    (as : List TaskAct) (check : OfferState → Task → Bool)
    (h : ((offerLoop p.blake3 plainConfig ["out"] 65536 (.init .empty) entries).toOption.any fun st =>
      ((Task.start st streamCount).runs p as).any (check st)) = true) :
    ∃ st t, offerLoop p.blake3 plainConfig ["out"] 65536 (.init .empty) entries = .ok st ∧
      (Task.start st streamCount).runs p as = some t ∧ check st t = true := by
  obtain ⟨st, hst, hrun⟩ := exists_ok_of_any h
  obtain ⟨t, ht, hcheck⟩ := (Option.any_eq_true _ _).1 hrun
  exact ⟨st, t, hst, ht, hcheck⟩

/-- The run meets the condition, and `run` has returned. -/
def endedAfterJoin (st : OfferState) (t : Task) : Bool :=
  decide (Run.Meets (Task.step uncheckpointed) (fun t a => ¬ t.EndsOverWorkers a) (Task.start st 1)
    (singleRun.map .session)) && t.session.main.hasReturned

/-- A receive that succeeds. -/
theorem ended_session_silent_single :
    ∃ t : Task, t.Ended ∧ t.Silent uncheckpointed := by
  obtain ⟨st, t, -, ht, hcheck⟩ := exists_taskRun uncheckpointed singleOffer 1
    (singleRun.map .session) endedAfterJoin (by decide +kernel)
  rw [endedAfterJoin, Bool.and_eq_true] at hcheck
  obtain ⟨hmeets, hreturned⟩ := hcheck
  have hended : t.Ended := Or.inr (MainPc.exists_of_hasReturned hreturned)
  exact ⟨t, hended, ended_session_silent (of_decide_eq_true hmeets) ht hended⟩

/-- One of two streams is there when `run` ends; its chunk arrives afterwards. -/
def leakedRun (ending : TaskAct) : List TaskAct :=
  [.session .accept, ending, .session (.deliver 0 (oneByteFrame 0 0x41)), .session (.worker 0 .next),
    .session (.worker 0 .next), .session (.worker 0 .next)]

/-- `run` has ended, and the worker's next step writes to the file. -/
def endedOverWrite (t : Task) : Bool :=
  (t.dropped || t.session.main.hasReturned) &&
    (t.session.stepEffect uncheckpointed (.worker 0 (.write 1))).any fun x => x.2.audible

/-- After this ending the session is not silent. -/
def Leaks (ending : TaskAct) : Prop :=
  ∃ st t, offerLoop uncheckpointed.blake3 plainConfig ["out"] 65536 (.init .empty) singleOffer
      = .ok st ∧
    (Task.start st 2).runs uncheckpointed (leakedRun ending) = some t ∧ t.Ended ∧
    ¬ t.Silent uncheckpointed

theorem leaks_of_endedOverWrite {ending : TaskAct}
    (h : ((offerLoop uncheckpointed.blake3 plainConfig ["out"] 65536 (.init .empty)
      singleOffer).toOption.any fun st =>
        ((Task.start st 2).runs uncheckpointed (leakedRun ending)).any endedOverWrite) = true) :
    Leaks ending := by
  obtain ⟨st, t, hst, ht, hcheck⟩ := exists_taskRun uncheckpointed singleOffer 2 (leakedRun ending)
    (fun _ => endedOverWrite) h
  rw [endedOverWrite, Bool.and_eq_true, Bool.or_eq_true] at hcheck
  obtain ⟨hended, hwrite⟩ := hcheck
  obtain ⟨⟨s', e⟩, he, haudible⟩ := (Option.any_eq_true _ _).1 hwrite
  refine ⟨st, t, hst, ht, hended.imp id MainPc.exists_of_hasReturned, fun hsilent => ?_⟩
  have hquiet := hsilent 0 (.write 1) s' e he
  rw [haudible] at hquiet
  cases hquiet

/-- A worker that outlives `run` writes to the file, whether `run` has returned an error or has been
    aborted. -/
theorem leaked_worker_writes : Leaks (.session (.refuse (.tls "handshake"))) ∧ Leaks .abort :=
  ⟨leaks_of_endedOverWrite (by decide +kernel), leaks_of_endedOverWrite (by decide +kernel)⟩

end AetherLink
