import AetherLink.Proofs.Halting
import AetherLink.Proofs.Safety

set_option autoImplicit false

/-! # A receiver waits for nothing but its sender

The sender decides what arrives, and it may be hostile. It can keep a receiver busy only by what it
sends: with the bytes that are there, the workers and `run` take finitely many steps, also on the
error path and however their calls go (`Session.halts`), and none of them is left waiting for
another. Where no step is left, every worker has ended or lacks bytes of an open stream, and `run` has
returned, awaits a stream that is still to be opened, or joins such a worker
(`Session.Grounded.settled`). So once every stream is open and has ended, `run` returns. -/

namespace AetherLink

open Bytes Storage

/-! ## The receiver's own steps -/

/-- A step the receiver takes by itself: nothing arrives, and no stream is opened. -/
def SessionAct.Own : SessionAct → Prop
  | .worker _ _ => True
  | .join _ => True
  | .main _ => True
  | _ => False

theorem SessionAct.Own.ne_deliver {a : SessionAct} (h : a.Own) (i : Nat) (bytes : List UInt8) :
    a ≠ .deliver i bytes := by
  rintro rfl
  exact h

/-- **The receiver's own steps come to an end**, from any state and however its calls go. -/
theorem Session.halts (p : Params) (s : Session) :
    Run.Halts (Session.step p) SessionAct.Own s :=
  Run.halts_of_measure (Run.lighter_wellFounded less_wellFounded)
    (fun s : Session => (s.work, (s.toDo : Multiset _))) (I := fun _ => True)
    (fun _ _ _ _ _ _ => trivial) (fun _ _ _ _ ha hstep => lighter ha.ne_deliver hstep) trivial

/-! ## Where they end -/

/-- The worker lacks bytes of a stream that is open. -/
def Worker.Starved (w : Worker) : Prop :=
  w.closed = none ∧ ((w.pc = .header ∧ w.inbox.length < HEADER_LEN) ∨
    ∃ n, w.pc = .payload n ∧ w.inbox.length < n)

/-- The files `run` is at or has still to go over, the error path included. -/
def MainPc.concerns : MainPc → List UInt64
  | .failing _ todo => todo
  | .saving _ id todo _ => id :: todo
  | .shelving id _ => [id]
  | .aborting id => [id]
  | pc => pc.todo

/-- What has to hold of a session so that none of its parts is without a next step: what a worker is
    at is a chunk of a file with a digest, and `run` goes over files that are there. -/
structure Session.Grounded (blake3 : Blake3) (s : Session) : Prop where
  snug : ∀ w ∈ s.workers, w.Snug
  fits : s.Fits blake3
  hashed : s.env.files.Hashed
  mapped : ∀ id ∈ s.main.concerns, ∃ st, s.env.files.lookup id = some st

/-- A checkpoint has a next step, if only one whose call fails. -/
theorem exists_checkpointStep (blake3 : Blake3) (d : FileSystem) (s : FileState)
    (pc : CheckpointPc) : ∃ io x, checkpointStep blake3 d s pc io = some x := by
  cases pc with
  | snapshot =>
      by_cases hzero : s.bitmap.setCount = 0
      · exact ⟨.next, _, if_pos hzero⟩
      · exact ⟨.next, _, if_neg hzero⟩
  | _ => exact ⟨.fail, _, rfl⟩

/-- **A worker that has not ended and is not starved has a next step.** -/
theorem Worker.exists_step {p : Params} {env : Env} {w : Worker} (hsnug : w.Snug)
    (hfits : w.Fits p.blake3 env.files) (hhashed : env.files.Hashed)
    (hrun : ∀ r, w.pc ≠ .ended r) (hfed : ¬ w.Starved) : ∃ io x, w.step p env io = some x := by
  by_cases hheader : w.pc = .header
  · have hread : ∃ w', w.readHeader env.files = some w' := by
      unfold readHeader
      split
      · simp only
        split
        · exact ⟨_, rfl⟩
        · split
          · exact ⟨_, rfl⟩
          · split <;> exact ⟨_, rfl⟩
          · exact ⟨_, rfl⟩
          · exact ⟨_, rfl⟩
      · next hshort =>
          cases hclosed : w.closed with
          | none => exact absurd ⟨hclosed, Or.inl ⟨hheader, Nat.not_le.1 hshort⟩⟩ hfed
          | some how => cases how <;> exact ⟨_, rfl⟩
    obtain ⟨w', hw'⟩ := hread
    exact ⟨.next, (w', .quiet), by simp [step, hheader, hw']⟩
  · obtain ⟨c, hcur⟩ := hsnug.busy hheader hrun
    obtain ⟨s, hs, hof⟩ := hfits.current c hcur
    suffices hchunk : ∃ io x, w.stepChunk p env c s w.pc io = some x by
      obtain ⟨io, x, hx⟩ := hchunk
      refine ⟨io, x, ?_⟩
      unfold step
      split
      · next r hpc => exact absurd hpc (hrun r)
      · next hpc => exact absurd hpc hheader
      · simp only [hcur, hs, hx]
    cases hpc : w.pc with
    | ended r => exact absurd hpc (hrun r)
    | header => exact absurd hpc hheader
    | payload n =>
        have hread : ∃ w', w.readPayload c n = some w' := by
          unfold readPayload
          split
          · exact ⟨_, rfl⟩
          · next hshort =>
              cases hclosed : w.closed with
              | none => exact absurd ⟨hclosed, Or.inr ⟨n, hpc, Nat.not_le.1 hshort⟩⟩ hfed
              | some how => exact ⟨_, rfl⟩
        obtain ⟨w', hw'⟩ := hread
        exact ⟨.next, (w', .quiet), by simp [stepChunk, hw']⟩
    | verify =>
        have hindex : c.chunkIndex < s.chunkHashes.length := by
          rw [hhashed _ s hs]
          exact hof.index
        have hdigest := List.getElem?_eq_getElem hindex
        by_cases hd : hashChunk p.blake3 w.buf = s.chunkHashes[c.chunkIndex]
        · exact ⟨.next, ({ w with pc := .write 0 }, .quiet), by simp [stepChunk, hdigest, hd]⟩
        · exact ⟨.next, (w.stop (.error (.chunkVerificationFailed c.start)), .quiet), by
            simp [stepChunk, hdigest, hd]⟩
    | write done => exact ⟨.fail, _, rfl⟩
    | mark =>
        cases hset : s.bitmap.set c.chunkIndex with
        | error err => exact ⟨.next, (w.stop (.error (.wire err)), .quiet), by
            simp [stepChunk, hset]⟩
        | ok b =>
            exact ⟨.next, ({ w with pc := .count b.isComplete }, .setBit c.fileId c.chunkIndex),
              by simp [stepChunk, hset]⟩
    | due =>
        by_cases hoff : p.checkpointBytes = 0
        · exact ⟨.next, _, if_pos hoff⟩
        · exact ⟨.next, _, if_neg hoff⟩
    | tryLock =>
        by_cases htaken : s.checkpointing = true
        · exact ⟨.next, _, if_pos htaken⟩
        · exact ⟨.next, _, if_neg htaken⟩
    | checkpoint pc =>
        obtain ⟨io, ⟨next, e⟩, hx⟩ := exists_checkpointStep p.blake3 env.disk s pc
        cases next with
        | goOn pc' =>
            exact ⟨io, ({ w with pc := .checkpoint pc' }, e), by simp only [stepChunk, hx]⟩
        | done r => exact ⟨io, ({ w with pc := .release r }, e), by simp only [stepChunk, hx]⟩
    | _ => exact ⟨.next, _, rfl⟩

/-- **`run` has a next step** past the join until it returns. -/
theorem Session.exists_mainStep {p : Params} {env : Env} {pc : MainPc}
    (hmapped : ∀ id ∈ pc.concerns, ∃ st, env.files.lookup id = some st)
    (hspawning : ∀ left, pc ≠ .spawning (left + 1)) (hjoining : pc ≠ .joining)
    (hrun : ∀ r, pc ≠ .returned r) : ∃ io x, mainStep p env pc io = some x := by
  cases pc with
  | spawning left =>
      cases left with
      | zero => exact ⟨.next, _, rfl⟩
      | succ left => exact absurd rfl (hspawning left)
  | joining => exact absurd rfl hjoining
  | failing error todo =>
      cases todo with
      | nil => exact ⟨.next, _, rfl⟩
      | cons id todo => exact ⟨.next, _, rfl⟩
  | saving error id todo pc =>
      obtain ⟨st, hst⟩ := hmapped id List.mem_cons_self
      obtain ⟨io, ⟨next, e⟩, hx⟩ := exists_checkpointStep p.blake3 env.disk st pc
      cases next with
      | goOn pc' => exact ⟨io, (.saving error id todo pc', e), by simp only [mainStep, hst, hx]⟩
      | done r => exact ⟨io, (.failing error todo, e), by simp only [mainStep, hst, hx]⟩
  | checking todo =>
      cases todo with
      | nil => exact ⟨.next, _, rfl⟩
      | cons id todo =>
          obtain ⟨st, hst⟩ := hmapped id List.mem_cons_self
          by_cases hc : st.bitmap.isComplete = true
          · exact ⟨.next, (.syncing id todo, .quiet), by simp only [mainStep, hst, if_pos hc]⟩
          · exact ⟨.next, (.shelving id .snapshot, .quiet), by
              simp only [mainStep, hst, if_neg hc]⟩
  | shelving id pc =>
      obtain ⟨st, hst⟩ := hmapped id List.mem_cons_self
      obtain ⟨io, ⟨next, e⟩, hx⟩ := exists_checkpointStep p.blake3 env.disk st pc
      cases next with
      | goOn pc' => exact ⟨io, (.shelving id pc', e), by simp only [mainStep, hst, hx]⟩
      | done r => exact ⟨io, (.aborting id, e), by simp only [mainStep, hst, hx]⟩
  | aborting id =>
      obtain ⟨st, hst⟩ := hmapped id List.mem_cons_self
      exact ⟨.fail, (.returned (.error (.incomplete (incompleteReason st))), .quiet), by
        simp only [mainStep, hst]⟩
  | syncing id todo =>
      obtain ⟨st, hst⟩ := hmapped id List.mem_cons_self
      exact ⟨.next, (.dropping id todo, .fsync st.sink.ino), by simp only [mainStep, hst]⟩
  | dropping id todo =>
      obtain ⟨st, hst⟩ := hmapped id List.mem_cons_self
      exact ⟨.fail, (.droppingTmp id todo, .quiet), by simp only [mainStep, hst]⟩
  | droppingTmp id todo =>
      obtain ⟨st, hst⟩ := hmapped id List.mem_cons_self
      exact ⟨.fail, (.checking todo, .quiet), by simp only [mainStep, hst]⟩
  | completing => exact ⟨.fail, _, rfl⟩
  | returned r => exact absurd rfl (hrun r)

/-! ## Every step keeps it so -/

theorem MainMove.concerns_subset {p : Params} {env : Env} {pc pc' : MainPc} {e : Effect}
    (h : MainMove p env pc pc' e) : pc'.concerns ⊆ pc.concerns := by
  cases h with
  | saves error id todo => exact List.Subset.refl _
  | saving error todo hs hmove => exact List.Subset.refl _
  | saved error todo hs hmove => exact List.subset_cons_self _ _
  | complete todo hs hc => exact List.Subset.refl _
  | incomplete todo hs hc => exact List.cons_subset_cons _ (List.nil_subset _)
  | shelving hs hmove => exact List.Subset.refl _
  | shelved hs hmove => exact List.Subset.refl _
  | syncs todo hs => exact List.Subset.refl _
  | drops todo hs he => exact List.Subset.refl _
  | dropsTmp todo hs he => exact List.subset_cons_self _ _
  | _ => exact List.nil_subset _

theorem Session.Grounded.step {p : Params} {s s' : Session} {e : Effect}
    (h : s.Grounded p.blake3) (hmove : SessionMove p s s' e) : s'.Grounded p.blake3 := by
  refine ⟨?_, hmove.fits h.fits, ?_, ?_⟩
  · exact hmove.forall_workers (fun _ inbox closed hsnug => hsnug.arrives inbox closed)
      (fun _ _ _ hmove hsnug => hsnug.step hmove) Worker.Snug.fresh h.snug
  · rw [hmove.env_eq]
    exact h.hashed.apply e
  · have hmapped : ∀ id, (∃ st, s.env.files.lookup id = some st) →
        ∃ st, (s.env.apply e).files.lookup id = some st :=
      fun id ⟨st, hst⟩ => ⟨_, Env.lookup_apply_of hst⟩
    cases hmove with
    | arrives hw hopen inbox closed => exact h.mapped
    | worker hw hmove => exact fun id hid => hmapped id (h.mapped id hid)
    | accepts hspawning => exact fun id hid => absurd hid List.not_mem_nil
    | refuses hspawning error => exact fun id hid => absurd hid List.not_mem_nil
    | joins hjoining hended horder hnext =>
        intro id hid
        have hmem : id ∈ s.env.files.keys := by
          rcases hnext with ⟨error, -, rfl⟩ | ⟨-, rfl⟩ <;> exact horder.mem_iff.1 hid
        exact Option.isSome_iff_exists.1 (AList.lookup_isSome.2 (AList.mem_keys.2 hmem))
    | main hmove => exact fun id hid => hmapped id (h.mapped id (hmove.concerns_subset hid))

/-- What the receiver waits for when it has no step of its own left. -/
structure Session.Settled (s : Session) : Prop where
  workers : ∀ w ∈ s.workers, (∃ r, w.pc = .ended r) ∨ w.Starved
  main : (∃ r, s.main = .returned r) ∨ (∃ left, s.main = .spawning (left + 1)) ∨
    (s.main = .joining ∧ ∃ w ∈ s.workers, w.Starved)

/-- **Where no own step is left, the receiver waits for bytes or for a stream**, or is done. -/
theorem Session.Grounded.settled {p : Params} {s : Session} (h : s.Grounded p.blake3)
    (hstuck : Run.Stuck (Session.step p) SessionAct.Own s) : s.Settled := by
  have hworkers : ∀ w ∈ s.workers, (∃ r, w.pc = .ended r) ∨ w.Starved := by
    intro w hw
    by_contra hne
    rw [not_or, not_exists] at hne
    obtain ⟨i, hi⟩ := List.mem_iff_getElem?.1 hw
    obtain ⟨io, ⟨w', e⟩, hstep⟩ :=
      Worker.exists_step (h.snug w hw) (h.fits w hw) h.hashed hne.1 hne.2
    have hnone := hstuck (.worker i io) trivial
    simp only [Session.step, stepEffect, hi, hstep, Option.map_some] at hnone
    cases hnone
  refine ⟨hworkers, ?_⟩
  by_contra hne
  simp only [not_or, not_exists, not_and] at hne
  obtain ⟨hrun, hspawning, hjoining⟩ := hne
  by_cases hmain : s.main = .joining
  · -- every worker has ended: `run` joins them
    have hended : s.workers.all (fun w => w.pc.result?.isSome) = true := by
      refine List.all_eq_true.2 fun w hw => ?_
      rcases hworkers w hw with ⟨r, hr⟩ | hstarved
      · rw [hr]
        rfl
      · exact absurd hstarved (hjoining hmain w hw)
    have hnone := hstuck (.join s.env.files.keys) trivial
    simp only [Session.step, stepEffect, hmain, hended, List.Perm.refl, and_self, if_true] at hnone
    split at hnone <;> cases hnone
  · obtain ⟨io, ⟨main, e⟩, hstep⟩ :=
      exists_mainStep (p := p) h.mapped (fun left => hspawning left) hmain hrun
    have hnone := hstuck (.main io) trivial
    simp only [Session.step, stepEffect, hstep, Option.map_some] at hnone
    cases hnone

/-- A starved worker has no step. -/
theorem Worker.Starved.step_none {w : Worker} (h : w.Starved) (p : Params) (env : Env)
    (io : IoAct) : w.step p env io = none := by
  obtain ⟨hopen, ⟨hpc, hshort⟩ | ⟨n, hpc, hshort⟩⟩ := h
  · have hread : w.readHeader env.files = none := by
      rw [readHeader, if_neg (Nat.not_le.2 hshort), hopen]
    simp only [step, hpc, hread, Option.map_none, ite_self]
  · have hread : ∀ c, w.readPayload c n = none := by
      intro c
      rw [readPayload, if_neg (Nat.not_le.2 hshort), hopen]
    simp only [step, hpc]
    split
    · rfl
    · split
      · rfl
      · cases io with
        | next => simp only [stepChunk, hread, Option.map_none]
        | _ => rfl

theorem Worker.Starved.running {w : Worker} (h : w.Starved) (r : Except Error Unit) :
    w.pc ≠ .ended r := by
  obtain ⟨-, ⟨hpc, -⟩ | ⟨n, hpc, -⟩⟩ := h <;> simp [hpc]

/-- A receiver that waits has no step of its own. -/
theorem Session.Settled.stuck {s : Session} (h : s.Settled) (p : Params) :
    Run.Stuck (Session.step p) SessionAct.Own s := by
  intro a ha
  cases a with
  | worker i io =>
      cases hw : s.workers[i]? with
      | none => simp only [Session.step, stepEffect, hw, Option.map_none]
      | some w =>
          have hnone : w.step p s.env io = none := by
            rcases h.workers w (List.mem_of_getElem? hw) with ⟨r, hr⟩ | hstarved
            · simp only [Worker.step, hr]
            · exact hstarved.step_none p s.env io
          simp only [Session.step, stepEffect, hw, hnone, Option.map_none]
  | join order =>
      rcases h.main with ⟨r, hr⟩ | ⟨left, hleft⟩ | ⟨hjoining, w, hw, hstarved⟩
      · simp only [Session.step, stepEffect, hr, Option.map_none]
      · simp only [Session.step, stepEffect, hleft, Option.map_none]
      · have hrunning : ¬ (s.workers.all (fun w => w.pc.result?.isSome) = true ∧
            order.Perm s.env.files.keys) := by
          intro hall
          have hsome := List.all_eq_true.1 hall.1 w hw
          cases hpc : w.pc with
          | ended r => exact hstarved.running r hpc
          | _ => simp [hpc, WorkerPc.result?] at hsome
        simp only [Session.step, stepEffect, hjoining, if_neg hrunning, Option.map_none]
  | main io =>
      have hnone : mainStep p s.env s.main io = none := by
        rcases h.main with ⟨r, hr⟩ | ⟨left, hleft⟩ | ⟨hjoining, -⟩
        · rw [hr]
          rfl
        · rw [hleft]
          rfl
        · rw [hjoining]
          rfl
      simp only [Session.step, stepEffect, hnone, Option.map_none]
  | deliver i bytes => exact ha.elim
  | close i how => exact ha.elim
  | accept => exact ha.elim
  | refuse error => exact ha.elim

/-! ## Any run -/

/-- Every stream is open and has ended. -/
structure Session.Supplied (s : Session) : Prop where
  opened : s.main.left = 0
  ended : ∀ w ∈ s.workers, w.closed ≠ none

/-- `run` has returned and every worker has ended. -/
structure Session.Over (s : Session) : Prop where
  main : ∃ r, s.main = .returned r
  workers : ∀ w ∈ s.workers, ∃ r, w.pc = .ended r

/-- The receiver's own steps open no stream and end none. -/
theorem Session.Supplied.step {p : Params} {s s' : Session} {a : SessionAct} (h : s.Supplied)
    (ha : a.Own) (hstep : s.step p a = some s') : s'.Supplied := by
  obtain ⟨e, heff, -⟩ := step_moves hstep
  cases stepEffect_cases heff with
  | deliver hw hopen => exact ha.elim
  | close hw hopen => exact ha.elim
  | accept hspawning => exact ha.elim
  | refuse hspawning => exact ha.elim
  | @worker i io w w' e hw hworker =>
      refine ⟨h.opened, fun v hv => ?_⟩
      rcases List.mem_or_eq_of_mem_set hv with hold | rfl
      · exact h.ended v hold
      · rw [(Worker.step_moves hworker).closed_eq]
        exact h.ended w (List.mem_of_getElem? hw)
  | join hjoining hended horder hnext =>
      rcases hnext with ⟨error, -, rfl⟩ | ⟨-, rfl⟩ <;> exact ⟨rfl, h.ended⟩
  | main hmain => exact ⟨(mainStep_moves hmain).left_eq.trans h.opened, h.ended⟩

theorem Session.Supplied.of_runs {p : Params} {s s' : Session} {as : List SessionAct}
    (h : s.Supplied) (has : ∀ a ∈ as, a.Own) (hrun : s.runs p as = some s') : s'.Supplied := by
  induction as generalizing s with
  | nil =>
      obtain rfl := Option.some.inj hrun
      exact h
  | cons a as ih =>
      obtain ⟨m, hm, hrest⟩ := Run.runs_cons_some hrun
      exact ih (h.step (has a List.mem_cons_self) hm)
        (fun b hb => has b (List.mem_cons_of_mem a hb)) hrest

/-- A receiver that has all of its streams waits for nothing. -/
theorem Session.Supplied.isOver {s : Session} (h : s.Supplied) (hsettled : s.Settled) : s.Over := by
  have hfed : ∀ w ∈ s.workers, ¬ w.Starved := fun w hw hstarved => h.ended w hw hstarved.1
  refine ⟨?_, fun w hw => (hsettled.workers w hw).resolve_right (hfed w hw)⟩
  rcases hsettled.main with hreturned | ⟨left, hleft⟩ | ⟨-, w, hw, hstarved⟩
  · exact hreturned
  · have hopened := h.opened
    rw [hleft] at hopened
    cases hopened
  · exact absurd hstarved (hfed w hw)

theorem Session.grounded_of_runs {p : Params} {config : Config} {outputDir : FilePath}
    {chunkSize : UInt32} {disk : FileSystem} {xs : List (FileEntry × EntryIo)} {st : OfferState}
    {streamCount : UInt32} {as : List SessionAct} {s : Session}
    (h : offerLoop p.blake3 config outputDir chunkSize (.init disk) xs = .ok st)
    (hrun : (Session.start st streamCount).runs p as = some s) : s.Grounded p.blake3 := by
  refine Run.invariant (fun s a s' hs hstep => ?_) ?_ hrun
  · obtain ⟨e, -, hmove⟩ := step_moves hstep
    exact hs.step hmove
  · exact ⟨fun w hw => absurd hw List.not_mem_nil, fun w hw => absurd hw List.not_mem_nil,
      (unspent_offerLoop h).hashed, fun id hid => absurd hid List.not_mem_nil⟩

/-- The receiver goes on until it waits for its sender: its own steps come to an end, they have come
    to it exactly where it is `Settled`, and if its sender is done with it, they lead to where it has
    returned and nowhere else. -/
structure Session.WaitsOnlyForSender (p : Params) (s : Session) : Prop where
  finite : ¬ ∃ f : Nat → Session, f 0 = s ∧
    ∀ n, Run.Next (Session.step p) SessionAct.Own (f (n + 1)) (f n)
  stops : Run.Stuck (Session.step p) SessionAct.Own s ↔ s.Settled
  returns : s.Supplied → ∃ bs s', (∀ b ∈ bs, b.Own) ∧ s.runs p bs = some s' ∧ s'.Over
  finishes : s.Supplied → ∀ bs s', (∀ b ∈ bs, b.Own) → s.runs p bs = some s' →
    Run.Stuck (Session.step p) SessionAct.Own s' → s'.Over

/-- **A receiver waits for nothing but its sender**: in every state a session with an accepted offer
    can come to, whatever has arrived on its streams, however its calls went and however its steps
    interleaved. -/
theorem receiver_waits_only_for_sender {p : Params} {config : Config} {outputDir : FilePath}
    {chunkSize : UInt32} {disk : FileSystem} {xs : List (FileEntry × EntryIo)} {st : OfferState}
    {streamCount : UInt32} {as : List SessionAct} {s : Session}
    (h : offerLoop p.blake3 config outputDir chunkSize (.init disk) xs = .ok st)
    (hrun : (Session.start st streamCount).runs p as = some s) : s.WaitsOnlyForSender p := by
  have hgrounded := Session.grounded_of_runs h hrun
  -- wherever own steps lead without a next one, a receiver that has its streams is done
  have hfinishes : s.Supplied → ∀ bs s', (∀ b ∈ bs, b.Own) → s.runs p bs = some s' →
      Run.Stuck (Session.step p) SessionAct.Own s' → s'.Over := by
    intro hsupplied bs s' hbs hruns hstuck
    have hall : (Session.start st streamCount).runs p (as ++ bs) = some s' := by
      rw [Session.runs] at hrun ⊢
      rw [Run.runs_append, hrun]
      exact hruns
    exact (hsupplied.of_runs hbs hruns).isOver ((Session.grounded_of_runs h hall).settled hstuck)
  refine ⟨(s.halts p).not_forever, ⟨hgrounded.settled, fun hsettled => hsettled.stuck p⟩,
    fun hsupplied => ?_, hfinishes⟩
  obtain ⟨bs, s', hbs, hruns, hstuck⟩ := (s.halts p).exists_stuck
  exact ⟨bs, s', hbs, hruns, hfinishes hsupplied bs s' hbs hruns hstuck⟩

/-- One of two files arrives on the first stream, and the second stream is cut behind the header of the
    other. -/
def cutRun : List SessionAct :=
  [.accept, .accept] ++ receiveOneByte 0 0 0x41 ++
    [.deliver 1 ((oneByteFrame 1 0x42).take HEADER_LEN), .worker 1 .next, .close 0 .eof,
      .close 1 .failed]

/-- With one file held and the other missing, the session is not at its end, and its own steps lead
    there. -/
theorem receiver_waits_only_for_sender_cut : ∃ s : Session, s.Supplied ∧ ¬ s.Over ∧
    (∀ id ∈ ([0, 1] : List UInt64), ∃ fs, s.env.files.lookup id = some fs ∧
      fs.bitmap.isComplete = decide (id = 0)) ∧
    s.WaitsOnlyForSender uncheckpointed := by
  obtain ⟨st, s, hoffer, hrun, hcheck⟩ := exists_run uncheckpointed twoFileOffer 2 cutRun
    (fun _ s => decide ((s.main.left = 0 ∧ ∀ w ∈ s.workers, w.closed ≠ none) ∧
        ∃ w ∈ s.workers, w.pc.result? = none) &&
      ([0, 1] : List UInt64).all fun id => (s.env.files.lookup id).any fun fs =>
        fs.bitmap.isComplete == decide (id = 0)) (by decide +kernel)
  rw [Bool.and_eq_true, List.all_eq_true] at hcheck
  obtain ⟨⟨hleft, hclosed⟩, w, hw, hnone⟩ := of_decide_eq_true hcheck.1
  refine ⟨s, ⟨hleft, hclosed⟩, fun hover => ?_, fun id hid => ?_,
    receiver_waits_only_for_sender (p := uncheckpointed) hoffer hrun⟩
  · obtain ⟨r, hr⟩ := hover.workers w hw
    rw [hr] at hnone
    cases hnone
  · obtain ⟨fs, hfs, hbits⟩ := (Option.any_eq_true _ _).1 (hcheck.2 id hid)
    exact ⟨fs, hfs, beq_iff_eq.1 hbits⟩

end AetherLink
