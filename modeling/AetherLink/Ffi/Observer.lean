import AetherLink.Ffi.Engine
import Mathlib.Logic.Function.Basic

set_option autoImplicit false

/-! # What the observer is told

The observer learns of a state from `set_state`, which stores the state first, and from the reporter
of a transfer's task, which stores none.

`Watched` follows an engine and adds to it whose session each notification is of: the session that a
call has claimed, that a task was spawned for, that a `cancel` has taken the flag from. It also lets
the receive and send workers notify, which go on after the future that spawned them is dropped. -/

namespace AetherLink

/-! ## The state told and the state stored -/

/-- What the observer is told in the next step of the call. -/
def CallPc.tells : CallPc → Option SessionState
  | .telling host => some (Engine.startState host)
  | .tellingCancelled => some .cancelled
  | _ => none

/-- What the observer is told in the next step of the task. -/
def TransferTask.tells (k : TransferTask) : Option SessionState :=
  match k.status with
  | .announcing ok => some (Engine.endState ok)
  | _ => none

/-- The call is about to set a state, or to tell `state`. -/
def CallPc.settles (state : SessionState) : CallPc → Bool
  | .announcing _ => true
  | .cancelled => true
  | pc => pc.tells == some state

/-- The call has returned. -/
def CallPc.isReturned : CallPc → Bool
  | .returned _ => true
  | _ => false

namespace Engine

/-- The last state told; `Idle` if there is none. -/
def lastTold (e : Engine) : SessionState :=
  e.observed.getLast?.getD .idle

/-- No call is in progress. A notification is one step, so none is. -/
def quiet (e : Engine) : Bool :=
  e.calls.all CallPc.isReturned

/-- What the observer is told in this step. -/
def told (e : Engine) : Act → Option SessionState
  | .call i _ => (e.calls[i]?).bind CallPc.tells
  | .announce t => (e.tasks[t]?).bind TransferTask.tells
  | _ => none

/-- Some call is about to set a state, or to tell the stored one. -/
def settling (e : Engine) : Bool :=
  e.calls.any (CallPc.settles e.state)

/-- The observer is told another state than the stored one, and nobody is about to set that
    right. -/
def misleads (e : Engine) (a : Act) : Bool :=
  match e.told a with
  | none => false
  | some state => state != e.state && !e.settling

end Engine

/-! ## Whose notification it is -/

/-- A call of the observer. The session is the number of the claim it is made for. -/
inductive Note where
  | state (state : SessionState)
  | progress
  | fileCompleted
  | finished
  | error
  deriving DecidableEq, Repr

/-- `Completed`, `Failed` or `Cancelled`. -/
def Note.terminal : Note → Bool
  | .state .completed => true
  | .state .failed => true
  | .state .cancelled => true
  | _ => false

structure Watched where
  engine : Engine
  /-- claims so far: the last session is `claimed - 1` -/
  claimed : Nat
  /-- the session a start has claimed, or a `cancel` has ended -/
  callSession : Nat → Nat
  /-- the session a task was spawned for -/
  taskSession : Nat → Nat
  /-- some worker of the task's transfer is in its loop -/
  working : Nat → Bool
  /-- the sessions a `cancel` has ended -/
  cancelled : List Nat
  /-- the notifications, first to last -/
  log : List (Nat × Note)

namespace Watched

def init : Watched :=
  { engine := .init, claimed := 0, callSession := fun _ => 0, taskSession := fun _ => 0,
    working := fun _ => false, cancelled := [], log := [] }

def notify (w : Watched) (session : Nat) (note : Note) : Watched :=
  { w with log := w.log ++ [(session, note)] }

/-- What a step of call `i` means for the sessions. -/
def recordCall (w : Watched) (i : Nat) : CallPc → Watched
  | .claiming _ =>
      if w.engine.running then w
      else { w with
        claimed := w.claimed + 1
        callSession := Function.update w.callSession i w.claimed }
  | .telling host => w.notify (w.callSession i) (.state (Engine.startState host))
  | .spawning =>
      { w with
        taskSession := Function.update w.taskSession w.engine.tasks.length (w.callSession i)
        working := Function.update w.working w.engine.tasks.length true }
  | .clearing =>
      if w.engine.running then
        { w with
          cancelled := w.cancelled ++ [w.claimed - 1]
          callSession := Function.update w.callSession i (w.claimed - 1) }
      else w
  | .tellingCancelled => w.notify (w.callSession i) (.state .cancelled)
  | _ => w

/-- What a step of the engine means for the sessions. -/
def record (w : Watched) : Engine.Act → Watched
  | .call i _ =>
      match w.engine.calls[i]? with
      | none => w
      | some pc => w.recordCall i pc
  -- a future that returns `Ok` has joined its workers
  | .finish t ok => if ok then { w with working := Function.update w.working t false } else w
  | .announce t =>
      match w.engine.tasks[t]? with
      | some ⟨.announcing ok, _⟩ => w.notify (w.taskSession t) (.state (Engine.endState ok))
      | _ => w
  | .detail t =>
      match w.engine.tasks[t]? with
      | some ⟨.detailing ok, _⟩ => w.notify (w.taskSession t) (if ok then .finished else .error)
      | _ => w
  | _ => w

/-- Some worker of task `t`'s transfer is in its loop. -/
def works (w : Watched) (t : Nat) : Bool :=
  t < w.engine.tasks.length && w.working t

inductive Act where
  | engine (a : Engine.Act)
  /-- a worker of task `t`'s transfer calls the progress sink -/
  | progress (t : Nat)
  | fileCompleted (t : Nat)
  /-- the last worker of task `t`'s transfer leaves its loop -/
  | rest (t : Nat)
  deriving DecidableEq, Repr

def step (w : Watched) : Act → Option Watched
  | .engine a => (w.engine.step a).map fun e => { w.record a with engine := e }
  | .progress t => if w.works t then some (w.notify (w.taskSession t) .progress) else none
  | .fileCompleted t =>
      if w.works t then some (w.notify (w.taskSession t) .fileCompleted) else none
  | .rest t => some { w with working := Function.update w.working t false }

def runs (w : Watched) (as : List Act) : Option Watched :=
  Run.runs step w as

/-! ## One outcome for each session -/

/-- How often the session's end has been told. -/
def outcomes (w : Watched) (s : Nat) : Nat :=
  w.log.countP fun x => x.1 == s && x.2.terminal

/-- **No notification of a session after one of a later session.** -/
def InOrder (w : Watched) : Prop :=
  w.log.Pairwise fun x y => x.1 ≤ y.1

instance (w : Watched) : Decidable w.InOrder :=
  inferInstanceAs (Decidable (w.log.Pairwise fun x y => x.1 ≤ y.1))

end Watched

/-- The call will notify, or spawn a task that may. -/
def CallPc.owes : CallPc → Bool
  | .releasing => false
  | .cancelled => true
  | .tellingCancelled => true
  | pc => pc.holds

/-- The task has not ended: it will notify, or may. -/
def TransferTask.owes (k : TransferTask) : Bool :=
  k.status != .gone

namespace Watched

/-- The calls of the session that `p` counts. -/
def callsOf (w : Watched) (p : CallPc → Bool) (s : Nat) : Nat :=
  w.engine.calls.zipIdx.countP fun x => p x.1 && w.callSession x.2 == s

/-- The tasks of the session that `p` counts; it is told whether workers of the task are at work. -/
def tasksOf (w : Watched) (p : TransferTask → Bool → Bool) (s : Nat) : Nat :=
  w.engine.tasks.zipIdx.countP fun x => p x.1 (w.working x.2) && w.taskSession x.2 == s

/-- Calls, tasks and workers through which the session may still notify. -/
def sources (w : Watched) (s : Nat) : Nat :=
  w.callsOf CallPc.owes s + w.tasksOf (fun k working => k.owes || working) s

/-- A reporter is about to clear the flag although a `cancel` has ended its session. -/
def reportsCancelled (w : Watched) : Act → Bool
  | .engine (.release t) => w.cancelled.contains (w.taskSession t)
  | _ => false

/-- Whose notification the step makes. -/
def notifies (w : Watched) : Act → Option Nat
  | .engine (.call i _) => ((w.engine.calls[i]?).bind CallPc.tells).map fun _ => w.callSession i
  | .engine (.announce t) => some (w.taskSession t)
  | .engine (.detail t) => some (w.taskSession t)
  | .progress t => some (w.taskSession t)
  | .fileCompleted t => some (w.taskSession t)
  | _ => none

/-- A notification is made while an earlier session may still notify. -/
def overtakes (w : Watched) (a : Act) : Bool :=
  match w.notifies a with
  | none => false
  | some s => (List.range s).any fun s' => 0 < w.sources s'

end Watched

end AetherLink
