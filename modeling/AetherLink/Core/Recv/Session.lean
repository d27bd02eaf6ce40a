import AetherLink.Core.Recv.Drain
import AetherLink.Lib.Run

set_option autoImplicit false

/-! # A receive session

`run` from the moment it has written `Accept`: it accepts the data streams and spawns their workers,
joins them, and then either checkpoints every file and returns the error, or goes over the files,
checking, syncing and dropping the record of each, and writes `TransferComplete`.

`run` and its workers take steps in any order. Returning does not stop the workers: a spawned task
whose handle is dropped keeps running, so workers step on after an error return from the loop that
spawns them. -/

namespace AetherLink

open Storage

/-- The place of `run` after `Accept`. The lists are what is left of an iteration over the files. -/
inductive MainPc where
  /-- about to accept this many more streams -/
  | spawning (left : Nat)
  | joining
  /-- the error path, between checkpoints -/
  | failing (error : Error) (todo : List UInt64)
  | saving (error : Error) (id : UInt64) (todo : List UInt64) (pc : CheckpointPc)
  /-- the completeness loop, between files -/
  | checking (todo : List UInt64)
  /-- checkpointing a file found incomplete -/
  | shelving (id : UInt64) (pc : CheckpointPc)
  | aborting (id : UInt64)
  | syncing (id : UInt64) (todo : List UInt64)
  /-- `discard`: about to remove the record -/
  | dropping (id : UInt64) (todo : List UInt64)
  /-- `discard`: about to remove the temporary file -/
  | droppingTmp (id : UInt64) (todo : List UInt64)
  | completing
  | returned (result : Except Error UInt64)

structure Session where
  env : Env
  workers : List Worker
  main : MainPc

/-- What can happen next in a session. -/
inductive SessionAct where
  /-- bytes arrive on stream `i` -/
  | deliver (i : Nat) (bytes : List UInt8)
  /-- stream `i` ends -/
  | close (i : Nat) (how : Closing)
  /-- worker `i` takes a step -/
  | worker (i : Nat) (io : IoAct)
  /-- the next stream is established and says `Hello` -/
  | accept
  /-- the next stream fails to connect or to say `Hello` -/
  | refuse (error : Error)
  /-- every worker has ended; the file map will be iterated in this order -/
  | join (order : List UInt64)
  /-- `run` takes a step past the join -/
  | main (io : IoAct)
  deriving DecidableEq

def WorkerPc.result? : WorkerPc → Option (Except Error Unit)
  | .ended r => some r
  | _ => none

/-- The first error of the workers, in the order they were spawned. -/
def firstError (workers : List Worker) : Option Error :=
  workers.findSome? fun w =>
    match w.pc with
    | .ended (.error e) => some e
    | _ => none

namespace Session

/-- The session as it is once `Accept` is written. -/
def start (st : OfferState) (streamCount : UInt32) : Session :=
  { env := {
      disk := st.disk
      files := st.files
      counter := min st.resumedBytes st.totalBytes
      events := []
      sent := [] }
    workers := []
    main := .spawning streamCount.toNat }

/-- The counter is seeded with what was resumed, cut to the size of the offer. -/
theorem start_counter (st : OfferState) (streamCount : UInt32) :
    (start st streamCount).env.counter.toNat = min st.resumedBytes.toNat st.totalBytes.toNat := by
  simp only [start]
  rw [UInt64.min_def]
  split
  · next h => rw [Nat.min_eq_left (UInt64.le_iff_toNat_le.1 h)]
  · next h => rw [Nat.min_eq_right (Nat.le_of_not_le fun hle => h (UInt64.le_iff_toNat_le.2 hle))]

/-- The reason sent with `Abort` and returned when a file is incomplete. -/
def incompleteReason (s : FileState) : String :=
  display s.sink.path ++ " is incomplete"

/-- A step of `run` past the join: its next place and its effect. -/
def mainStep (p : Params) (env : Env) : MainPc → IoAct → Option (MainPc × Effect)
  | .spawning 0, .next => some (.joining, .quiet)
  | .failing error [], .next => some (.returned (.error error), .quiet)
  | .failing error (id :: todo), .next => some (.saving error id todo .snapshot, .quiet)
  | .saving error id todo pc, io =>
      match env.files.lookup id with
      | none => none
      | some s =>
          match checkpointStep p.blake3 env.disk s pc io with
          | none => none
          | some (.goOn pc', e) => some (.saving error id todo pc', e)
          | some (.done _, e) => some (.failing error todo, e)
  | .checking [], .next => some (.completing, .quiet)
  | .checking (id :: todo), .next =>
      match env.files.lookup id with
      | none => none
      | some s =>
          if s.bitmap.isComplete then some (.syncing id todo, .quiet)
          else some (.shelving id .snapshot, .quiet)
  | .shelving id pc, io =>
      match env.files.lookup id with
      | none => none
      | some s =>
          match checkpointStep p.blake3 env.disk s pc io with
          | none => none
          | some (.goOn pc', e) => some (.shelving id pc', e)
          | some (.done _, e) => some (.aborting id, e)
  | .aborting id, io =>
      match env.files.lookup id with
      | none => none
      | some s =>
          let reason := incompleteReason s
          match io with
          | .next => some (.returned (.error (.incomplete reason)), .send (.abort reason))
          | .fail => some (.returned (.error (.incomplete reason)), .quiet)
          | .write _ => none
  | .syncing id todo, io =>
      match env.files.lookup id with
      | none => none
      | some s =>
          match io with
          | .next => some (.dropping id todo, .fsync s.sink.ino)
          | .fail => some (.returned (.error (.io ("syncing " ++ display s.sink.path))), .quiet)
          | .write _ => none
  | .dropping id todo, io =>
      match env.files.lookup id with
      | none => none
      | some s =>
          match io with
          | .next => some (.droppingTmp id todo, .unlink (statePath s.sink.path))
          | .fail => some (.droppingTmp id todo, .quiet)
          | .write _ => none
  | .droppingTmp id todo, io =>
      match env.files.lookup id with
      | none => none
      | some s =>
          match io with
          | .next => some (.checking todo, .unlink (tmpPath s.sink.path))
          | .fail => some (.checking todo, .quiet)
          | .write _ => none
  | .completing, .next => some (.returned (.ok env.counter), .send (.complete env.counter))
  | .completing, .fail => some (.returned (.error (.io "writing Complete")), .quiet)
  | _, _ => none

/-- One step of the session, with its effect. -/
def stepEffect (p : Params) (s : Session) : SessionAct → Option (Session × Effect)
  | .deliver i bytes =>
      match s.workers[i]? with
      | none => none
      | some w =>
          if w.closed.isSome then none
          else some ({ s with workers := s.workers.set i { w with inbox := w.inbox ++ bytes } },
            .quiet)
  | .close i how =>
      match s.workers[i]? with
      | none => none
      | some w =>
          if w.closed.isSome then none
          else some ({ s with workers := s.workers.set i { w with closed := some how } }, .quiet)
  | .worker i io =>
      match s.workers[i]? with
      | none => none
      | some w =>
          match w.step p s.env io with
          | none => none
          | some (w', e) =>
              some ({ s with env := s.env.apply e, workers := s.workers.set i w' }, e)
  | .accept =>
      match s.main with
      | .spawning (left + 1) =>
          some ({ s with workers := s.workers ++ [Worker.fresh], main := .spawning left }, .quiet)
      | _ => none
  | .refuse error =>
      match s.main with
      | .spawning (_ + 1) => some ({ s with main := .returned (.error error) }, .quiet)
      | _ => none
  | .join order =>
      match s.main with
      | .joining =>
          if s.workers.all (fun w => w.pc.result?.isSome) ∧ order.Perm s.env.files.keys then
            match firstError s.workers with
            | some error => some ({ s with main := .failing error order }, .quiet)
            | none => some ({ s with main := .checking order }, .quiet)
          else none
      | _ => none
  | .main io =>
      match mainStep p s.env s.main io with
      | none => none
      | some (main, e) => some ({ s with env := s.env.apply e, main := main }, e)

def step (p : Params) (s : Session) (a : SessionAct) : Option Session :=
  (s.stepEffect p a).map Prod.fst

/-- The sessions `s` can become under `p`. -/
def runs (p : Params) (s : Session) (as : List SessionAct) : Option Session :=
  Run.runs (step p) s as

/-- The two removals are `discard` of the file. -/
theorem runs_dropping (p : Params) {s : Session} {id : UInt64} {todo : List UInt64}
    {st : FileState} (hmain : s.main = .dropping id todo) (hst : s.env.files.lookup id = some st) :
    ∃ s', s.runs p [.main .next, .main .next] = some s' ∧ s'.main = .checking todo ∧
      s'.env.disk = Resume.discard s.env.disk st.sink.path := by
  have hdrop : s.step p (.main .next)
      = some { s with
          env := s.env.apply (.unlink (statePath st.sink.path)), main := .droppingTmp id todo } := by
    simp only [step, stepEffect, mainStep, hmain, hst, Option.map_some]
  have hst' : (s.env.apply (.unlink (statePath st.sink.path))).files.lookup id = some st := hst
  have hruns : s.runs p [.main .next, .main .next]
      = some { s with
          env := (s.env.apply (.unlink (statePath st.sink.path))).apply
            (.unlink (tmpPath st.sink.path))
          main := .checking todo } := by
    rw [runs, Run.runs_cons, hdrop, Option.bind_some, Run.runs_cons]
    simp only [step, stepEffect, mainStep, hst', Option.map_some, Option.bind_some, Run.runs_nil]
  exact ⟨_, hruns, rfl, rfl⟩

end Session

/-! ## What a step can be -/

/-- Everything a step of `run` past the spawning loop and the join can be. -/
inductive MainMove (p : Params) (env : Env) : MainPc → MainPc → Effect → Prop
  | spawned : MainMove p env (.spawning 0) .joining .quiet
  | failed (error : Error) : MainMove p env (.failing error []) (.returned (.error error)) .quiet
  | saves (error : Error) (id : UInt64) (todo : List UInt64) :
      MainMove p env (.failing error (id :: todo)) (.saving error id todo .snapshot) .quiet
  | saving (error : Error) {id : UInt64} (todo : List UInt64) {s : FileState}
      {pc pc' : CheckpointPc} {e : Effect} (hs : env.files.lookup id = some s)
      (hmove : CheckpointMove p.blake3 env.disk s pc (.goOn pc') e) :
      MainMove p env (.saving error id todo pc) (.saving error id todo pc') e
  | saved (error : Error) {id : UInt64} (todo : List UInt64) {s : FileState} {pc : CheckpointPc}
      {r : Except Error Unit} {e : Effect} (hs : env.files.lookup id = some s)
      (hmove : CheckpointMove p.blake3 env.disk s pc (.done r) e) :
      MainMove p env (.saving error id todo pc) (.failing error todo) e
  | allChecked : MainMove p env (.checking []) .completing .quiet
  | complete {id : UInt64} (todo : List UInt64) {s : FileState}
      (hs : env.files.lookup id = some s) (hc : s.bitmap.isComplete = true) :
      MainMove p env (.checking (id :: todo)) (.syncing id todo) .quiet
  | incomplete {id : UInt64} (todo : List UInt64) {s : FileState}
      (hs : env.files.lookup id = some s) (hc : s.bitmap.isComplete = false) :
      MainMove p env (.checking (id :: todo)) (.shelving id .snapshot) .quiet
  | shelving {id : UInt64} {s : FileState} {pc pc' : CheckpointPc} {e : Effect}
      (hs : env.files.lookup id = some s)
      (hmove : CheckpointMove p.blake3 env.disk s pc (.goOn pc') e) :
      MainMove p env (.shelving id pc) (.shelving id pc') e
  | shelved {id : UInt64} {s : FileState} {pc : CheckpointPc} {r : Except Error Unit} {e : Effect}
      (hs : env.files.lookup id = some s)
      (hmove : CheckpointMove p.blake3 env.disk s pc (.done r) e) :
      MainMove p env (.shelving id pc) (.aborting id) e
  | aborts {id : UInt64} {s : FileState} {e : Effect} (hs : env.files.lookup id = some s)
      (he : e = .quiet ∨ e = .send (.abort (Session.incompleteReason s))) :
      MainMove p env (.aborting id)
        (.returned (.error (.incomplete (Session.incompleteReason s)))) e
  | syncs {id : UInt64} (todo : List UInt64) {s : FileState} (hs : env.files.lookup id = some s) :
      MainMove p env (.syncing id todo) (.dropping id todo) (.fsync s.sink.ino)
  | syncFails {id : UInt64} (todo : List UInt64) {s : FileState} {error : Error}
      (hs : env.files.lookup id = some s) :
      MainMove p env (.syncing id todo) (.returned (.error error)) .quiet
  | drops {id : UInt64} (todo : List UInt64) {s : FileState} {e : Effect}
      (hs : env.files.lookup id = some s)
      (he : e = .quiet ∨ e = .unlink (statePath s.sink.path)) :
      MainMove p env (.dropping id todo) (.droppingTmp id todo) e
  | dropsTmp {id : UInt64} (todo : List UInt64) {s : FileState} {e : Effect}
      (hs : env.files.lookup id = some s)
      (he : e = .quiet ∨ e = .unlink (tmpPath s.sink.path)) :
      MainMove p env (.droppingTmp id todo) (.checking todo) e
  | completes :
      MainMove p env .completing (.returned (.ok env.counter)) (.send (.complete env.counter))
  | completeFails {error : Error} :
      MainMove p env .completing (.returned (.error error)) .quiet

theorem Session.mainStep_moves {p : Params} {env : Env} {pc pc' : MainPc} {io : IoAct} {e : Effect}
    (h : mainStep p env pc io = some (pc', e)) : MainMove p env pc pc' e := by
  unfold mainStep at h
  split at h
  · cases h
    exact .spawned
  · cases h
    exact .failed _
  · cases h
    exact .saves _ _ _
  · split at h
    · cases h
    · next s hs =>
        split at h
        · cases h
        · next hstep =>
            cases h
            exact .saving _ _ hs (checkpointStep_moves hstep)
        · next hstep =>
            cases h
            exact .saved _ _ hs (checkpointStep_moves hstep)
  · cases h
    exact .allChecked
  · split at h
    · cases h
    · next s hs =>
        split at h
        · next hc =>
            cases h
            exact .complete _ hs hc
        · next hc =>
            cases h
            exact .incomplete _ hs (by simpa using hc)
  · split at h
    · cases h
    · next s hs =>
        split at h
        · cases h
        · next hstep =>
            cases h
            exact .shelving hs (checkpointStep_moves hstep)
        · next hstep =>
            cases h
            exact .shelved hs (checkpointStep_moves hstep)
  · split at h
    · cases h
    · next s hs =>
        simp only at h
        split at h
        · cases h
          exact .aborts hs (Or.inr rfl)
        · cases h
          exact .aborts hs (Or.inl rfl)
        · cases h
  · split at h
    · cases h
    · next s hs =>
        split at h
        · cases h
          exact .syncs _ hs
        · cases h
          exact .syncFails _ hs
        · cases h
  · split at h
    · cases h
    · next s hs =>
        split at h
        · cases h
          exact .drops _ hs (Or.inr rfl)
        · cases h
          exact .drops _ hs (Or.inl rfl)
        · cases h
  · split at h
    · cases h
    · next s hs =>
        split at h
        · cases h
          exact .dropsTmp _ hs (Or.inr rfl)
        · cases h
          exact .dropsTmp _ hs (Or.inl rfl)
        · cases h
  · cases h
    exact .completes
  · cases h
    exact .completeFails
  · cases h

/-- What a step of a session is, by who takes it. -/
inductive SessionMove (p : Params) (s : Session) : Session → Effect → Prop
  /-- bytes or an end arrive on a stream -/
  | arrives {i : Nat} {w : Worker} (hw : s.workers[i]? = some w) (hopen : w.closed = none)
      (inbox : List UInt8) (closed : Option Closing) :
      SessionMove p s
        { s with workers := s.workers.set i { w with inbox := w.inbox ++ inbox, closed := closed } }
        .quiet
  | worker {i : Nat} {w w' : Worker} {e : Effect} (hw : s.workers[i]? = some w)
      (hmove : WorkerMove p s.env w w' e) :
      SessionMove p s { s with env := s.env.apply e, workers := s.workers.set i w' } e
  | accepts {left : Nat} (hmain : s.main = .spawning (left + 1)) :
      SessionMove p s { s with workers := s.workers ++ [Worker.fresh], main := .spawning left }
        .quiet
  | refuses {left : Nat} (hmain : s.main = .spawning (left + 1)) (error : Error) :
      SessionMove p s { s with main := .returned (.error error) } .quiet
  | joins {order : List UInt64} {main : MainPc} (hmain : s.main = .joining)
      (hended : ∀ w ∈ s.workers, ∃ r, w.pc = .ended r) (horder : order.Perm s.env.files.keys)
      (hnext : (∃ error, firstError s.workers = some error ∧ main = .failing error order) ∨
        (firstError s.workers = none ∧ main = .checking order)) :
      SessionMove p s { s with main := main } .quiet
  | main {main : MainPc} {e : Effect} (hmove : MainMove p s.env s.main main e) :
      SessionMove p s { s with env := s.env.apply e, main := main } e

/-- A step of a session, by the act that made it. -/
inductive SessionStep (p : Params) (s : Session) : SessionAct → Session → Effect → Prop
  | deliver {i : Nat} {bytes : List UInt8} {w : Worker} (hw : s.workers[i]? = some w)
      (hopen : w.closed = none) :
      SessionStep p s (.deliver i bytes)
        { s with workers := s.workers.set i { w with inbox := w.inbox ++ bytes } } .quiet
  | close {i : Nat} {how : Closing} {w : Worker} (hw : s.workers[i]? = some w)
      (hopen : w.closed = none) :
      SessionStep p s (.close i how)
        { s with workers := s.workers.set i { w with closed := some how } } .quiet
  | worker {i : Nat} {io : IoAct} {w w' : Worker} {e : Effect} (hw : s.workers[i]? = some w)
      (hstep : w.step p s.env io = some (w', e)) :
      SessionStep p s (.worker i io)
        { s with env := s.env.apply e, workers := s.workers.set i w' } e
  | accept {left : Nat} (hmain : s.main = .spawning (left + 1)) :
      SessionStep p s .accept
        { s with workers := s.workers ++ [Worker.fresh], main := .spawning left } .quiet
  | refuse {left : Nat} {error : Error} (hmain : s.main = .spawning (left + 1)) :
      SessionStep p s (.refuse error) { s with main := .returned (.error error) } .quiet
  | join {order : List UInt64} {main : MainPc} (hmain : s.main = .joining)
      (hended : ∀ w ∈ s.workers, ∃ r, w.pc = .ended r) (horder : order.Perm s.env.files.keys)
      (hnext : (∃ error, firstError s.workers = some error ∧ main = .failing error order) ∨
        (firstError s.workers = none ∧ main = .checking order)) :
      SessionStep p s (.join order) { s with main := main } .quiet
  | main {io : IoAct} {main : MainPc} {e : Effect}
      (hstep : Session.mainStep p s.env s.main io = some (main, e)) :
      SessionStep p s (.main io) { s with env := s.env.apply e, main := main } e

/-- **Inversion of a session step**, with the act that made it. -/
theorem Session.stepEffect_cases {p : Params} {s s' : Session} {a : SessionAct} {e : Effect}
    (h : s.stepEffect p a = some (s', e)) : SessionStep p s a s' e := by
  cases a with
  | deliver i bytes =>
      simp only [stepEffect] at h
      split at h
      · cases h
      · next w hw =>
          split at h
          · cases h
          · next hopen =>
              cases h
              exact .deliver hw (by simpa using hopen)
  | close i how =>
      simp only [stepEffect] at h
      split at h
      · cases h
      · next w hw =>
          split at h
          · cases h
          · next hopen =>
              cases h
              exact .close hw (by simpa using hopen)
  | worker i io =>
      simp only [stepEffect] at h
      split at h
      · cases h
      · next w hw =>
          split at h
          · cases h
          · next hstep =>
              cases h
              exact .worker hw hstep
  | accept =>
      simp only [stepEffect] at h
      split at h
      · next hmain =>
          cases h
          exact .accept hmain
      · cases h
  | refuse error =>
      simp only [stepEffect] at h
      split at h
      · next hmain =>
          cases h
          exact .refuse hmain
      · cases h
  | join order =>
      simp only [stepEffect] at h
      split at h
      · next hmain =>
          split at h
          · next hready =>
              have hended : ∀ w ∈ s.workers, ∃ r, w.pc = .ended r := by
                intro w hw
                have := List.all_eq_true.1 hready.1 w hw
                cases hpc : w.pc with
                | ended r => exact ⟨r, rfl⟩
                | _ => simp [hpc, WorkerPc.result?] at this
              split at h
              · next error herr =>
                  cases h
                  exact .join hmain hended hready.2 (Or.inl ⟨error, herr, rfl⟩)
              · next herr =>
                  cases h
                  exact .join hmain hended hready.2 (Or.inr ⟨herr, rfl⟩)
          · cases h
      · cases h
  | main io =>
      simp only [stepEffect] at h
      split at h
      · cases h
      · next hstep =>
          cases h
          exact .main hstep

/-- Inversion of a session step, the bytes and the ends of streams taken together. -/
theorem Session.stepEffect_moves {p : Params} {s s' : Session} {a : SessionAct} {e : Effect}
    (h : s.stepEffect p a = some (s', e)) : SessionMove p s s' e := by
  cases stepEffect_cases h with
  | deliver hw hopen => exact .arrives hw hopen _ _
  | @close i how w hw hopen =>
      have hmove := SessionMove.arrives (p := p) hw hopen [] (some how)
      rwa [List.append_nil] at hmove
  | worker hw hstep => exact .worker hw (Worker.step_moves hstep)
  | accept hmain => exact .accepts hmain
  | refuse hmain => exact .refuses hmain _
  | join hmain hended horder hnext => exact .joins hmain hended horder hnext
  | main hstep => exact .main (mainStep_moves hstep)

theorem Session.step_moves {p : Params} {s s' : Session} {a : SessionAct}
    (h : s.step p a = some s') : ∃ e, s.stepEffect p a = some (s', e) ∧ SessionMove p s s' e := by
  unfold step at h
  rw [Option.map_eq_some_iff] at h
  obtain ⟨⟨s1, e⟩, he, rfl⟩ := h
  exact ⟨e, he, stepEffect_moves he⟩

end AetherLink
