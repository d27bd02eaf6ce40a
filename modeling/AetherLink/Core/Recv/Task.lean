import AetherLink.Core.Recv.Session

set_option autoImplicit false

/-! # A receive session as a task

`EngineSession::spawn` runs `run` as a task of its own, and `EngineSession::cancel` aborts it: its
future is dropped at its next await. The stream workers are tasks as well, and `run` holds their
handles in a local vector; dropping a handle detaches its task and does not stop it. -/

namespace AetherLink

/-- `run` waits here, so this is where an abort takes effect. Between the check of a file and the next
    one it does not wait, and inside a checkpoint it waits for the lock and then for the blocking
    call. -/
def MainPc.awaits : MainPc → Bool
  | .spawning left => left ≠ 0
  | .joining => true
  | .failing _ todo => todo ≠ []
  | .saving _ _ _ _ => true
  | .checking _ => true
  | .shelving _ _ => true
  | .aborting _ => true
  | .completing => true
  | .syncing _ _ => false
  | .dropping _ _ => false
  | .droppingTmp _ _ => false
  | .returned _ => false

/-- `run` is in the blocking call of a checkpoint, which nothing stops once it has begun. -/
def MainPc.blocking : MainPc → Bool
  | .saving _ _ _ pc => pc ≠ .snapshot
  | .shelving _ pc => pc ≠ .snapshot
  | _ => false

/-- The task of `run`, after `Accept`. -/
structure Task where
  session : Session
  /-- `cancel` has aborted the task, and its future is gone -/
  dropped : Bool

inductive TaskAct where
  | session (act : SessionAct)
  /-- the abort takes effect -/
  | abort
  deriving DecidableEq

namespace Task

def start (st : OfferState) (streamCount : UInt32) : Task :=
  { session := Session.start st streamCount, dropped := false }

/-- Whose step it is: `run` takes none once it has been dropped, but for a blocking call it has
    begun. The workers and the network go on. -/
def allows (t : Task) : SessionAct → Bool
  | .deliver _ _ => true
  | .close _ _ => true
  | .worker _ _ => true
  | .accept => !t.dropped
  | .refuse _ => !t.dropped
  | .join _ => !t.dropped
  | .main _ => !t.dropped || t.session.main.blocking

def step (p : Params) (t : Task) : TaskAct → Option Task
  | .session act =>
      if t.allows act then (t.session.step p act).map fun s => { t with session := s } else none
  | .abort =>
      if t.session.main.awaits ∧ t.dropped = false then some { t with dropped := true } else none

/-- The tasks `t` can become. -/
def runs (p : Params) (t : Task) (as : List TaskAct) : Option Task :=
  Run.runs (step p) t as

/-- `run` has returned, or its future has been dropped. -/
def Ended (t : Task) : Prop :=
  t.dropped = true ∨ ∃ r, t.session.main = .returned r

end Task

/-- What a worker's step does to the world outside the session's memory, or to a bitmap: it writes to
    a file, makes or renames one, sets a bit, or calls the progress sink. -/
def Effect.audible : Effect → Bool
  | .pwrite _ _ _ => true
  | .createFile _ => true
  | .rename _ _ => true
  | .unlink _ => true
  | .setBit _ _ => true
  | .notify _ => true
  | _ => false

/-- No worker has anything left to do that can be noticed. -/
def Task.Silent (p : Params) (t : Task) : Prop :=
  ∀ i io s' e, t.session.stepEffect p (.worker i io) = some (s', e) → e.audible = false

/-- `run` ends with this step before it has joined its workers: the next stream fails, or the task is
    aborted. -/
def TaskAct.endsEarly : TaskAct → Bool
  | .abort => true
  | .session (.refuse _) => true
  | _ => false

/-- `run` ends early, over workers that are still in their loops. -/
def Task.EndsOverWorkers (t : Task) (a : TaskAct) : Prop :=
  a.endsEarly = true ∧ ∃ w ∈ t.session.workers, w.pc.result?.isSome = false

instance (t : Task) (a : TaskAct) : Decidable (t.EndsOverWorkers a) :=
  inferInstanceAs (Decidable (_ ∧ _))

end AetherLink
