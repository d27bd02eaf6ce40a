import AetherLink.Lib.Run

set_option autoImplicit false

/-! # The engine's session object

`EngineSession` is what the platform calls, from any thread. It admits one transfer at a time by a
flag, `running`, which a start swaps to true and the transfer's own task stores false again when it
reports; `cancel` aborts the task whose handle is stored and clears the flag itself.

The flag, the stored handle and the task are changed one after the other. `Engine` steps through the
calls one such change at a time, any number of calls at once; the transfer a task runs is left out
but for when its future ends. -/

namespace AetherLink

/-- `SessionState`. -/
inductive SessionState where
  | idle
  | listening
  | transferring
  | completed
  | failed
  | cancelled
  deriving DecidableEq, Repr

/-- `EngineError`; the words of the operating system after an `engine` are left out. -/
inductive EngineError where
  | busy
  | badFingerprint
  | engine (doing : String)
  deriving DecidableEq, Repr

/-! ## State -/

/-- Where a spawned task is. -/
inductive TaskStatus where
  /-- in the transfer's future -/
  | running
  /-- the future has ended, and the reporter is about to clear the flag -/
  | reporting (ok : Bool)
  /-- about to tell the observer `Completed` or `Failed` -/
  | announcing (ok : Bool)
  /-- about to call `on_finished` or `on_error` -/
  | detailing (ok : Bool)
  | gone
  deriving DecidableEq, Repr

structure TransferTask where
  status : TaskStatus
  /-- `abort` has been called on its handle -/
  aborted : Bool
  deriving DecidableEq, Repr

/-- The task has not handed the session back yet. -/
def TaskStatus.holds : TaskStatus → Bool
  | .running => true
  | .reporting _ => true
  | _ => false

/-- The task holds the session, and is not aborted. -/
def TransferTask.owns (k : TransferTask) : Bool :=
  k.status.holds && !k.aborted

/-- The task has not ended, and is not aborted. It is live to the end of its reporter's calls. -/
def TransferTask.live (k : TransferTask) : Bool :=
  k.status != .gone && !k.aborted

/-- The task is live and has handed the session back. -/
def TransferTask.lingers (k : TransferTask) : Bool :=
  k.live && !k.status.holds

/-- The calls of the platform. -/
inductive Call where
  | startHostReceiving
  | startHostSending
  | startClientSending
  | startClientReceiving
  | cancel
  deriving DecidableEq, Repr

/-- The place of a call. -/
inductive CallPc where
  /-- `parse_fingerprint` -/
  | parsing
  /-- `claim`: about to swap the flag to true -/
  | claiming (host : Bool)
  /-- `bind_host`: about to generate an identity, to bind, to read the port -/
  | generating
  | binding
  | naming
  /-- the bind has failed, and the flag is about to be stored false -/
  | releasing
  /-- `set_state`: about to store the state, then to tell the observer -/
  | announcing (host : Bool)
  | telling (host : Bool)
  /-- `spawn`: about to spawn the task, then to store its handle -/
  | spawning
  | storing (t : Nat)
  /-- `cancel`: about to take the handle -/
  | taking
  /-- about to abort the task; the handle's lock is held until that is done -/
  | aborting (t : Nat)
  /-- about to swap the flag to false -/
  | clearing
  /-- `set_state` of `Cancelled` -/
  | cancelled
  | tellingCancelled
  | returned (result : Except EngineError Unit)

/-- The call has claimed the session and not spawned its task yet. -/
def CallPc.holds : CallPc → Bool
  | .generating => true
  | .binding => true
  | .naming => true
  | .releasing => true
  | .announcing _ => true
  | .telling _ => true
  | .spawning => true
  | _ => false

structure Engine where
  running : Bool
  state : SessionState
  /-- the stored handle -/
  task : Option Nat
  /-- every task spawned so far -/
  tasks : List TransferTask
  /-- every call made so far -/
  calls : List CallPc
  /-- what the observer has been told, first to last -/
  observed : List SessionState

namespace Engine

/-- `EngineSession::new`. -/
def init : Engine :=
  { running := false, state := .idle, task := none, tasks := [], calls := [], observed := [] }

/-! ## Steps -/

/-- Call `i` goes on to `pc`. -/
def goto (e : Engine) (i : Nat) (pc : CallPc) : Engine :=
  { e with calls := e.calls.set i pc }

/-- What `set_state` does first. -/
def store (e : Engine) (state : SessionState) : Engine :=
  { e with state := state }

/-- `on_state_changed`. -/
def tell (e : Engine) (state : SessionState) : Engine :=
  { e with observed := e.observed ++ [state] }

/-- The state a start sets. -/
def startState (host : Bool) : SessionState :=
  if host then .listening else .transferring

/-- The state a reporter tells. It stores none. -/
def endState (ok : Bool) : SessionState :=
  if ok then .completed else .failed

/-- Task `t` is changed. -/
def setTask (e : Engine) (t : Nat) (k : TransferTask) : Engine :=
  { e with tasks := e.tasks.set t k }

/-- A `cancel` holds the lock of the stored handle: in `if let Some(task) = self.task.lock()...` the
    guard lives to the end of the block. -/
def locked (e : Engine) : Bool :=
  e.calls.any fun pc =>
    match pc with
    | .aborting _ => true
    | _ => false

/-- `JoinHandle::abort`. -/
def abort (e : Engine) (t : Nat) : Engine :=
  match e.tasks[t]? with
  | none => e
  | some k => e.setTask t { k with aborted := true }

@[simp] theorem abort_state (e : Engine) (t : Nat) : (e.abort t).state = e.state := by
  rw [abort]
  split
  · rfl
  · rfl

@[simp] theorem abort_observed (e : Engine) (t : Nat) : (e.abort t).observed = e.observed := by
  rw [abort]
  split
  · rfl
  · rfl

@[simp] theorem abort_calls (e : Engine) (t : Nat) : (e.abort t).calls = e.calls := by
  rw [abort]
  split
  · rfl
  · rfl

@[simp] theorem abort_running (e : Engine) (t : Nat) : (e.abort t).running = e.running := by
  rw [abort]
  split
  · rfl
  · rfl

/-- One step of call `i`; `ok` says how an operation that can fail goes. -/
def callStep (e : Engine) (i : Nat) (ok : Bool) : CallPc → Option Engine
  | .parsing =>
      if ok then some (e.goto i (.claiming false))
      else some (e.goto i (.returned (.error .badFingerprint)))
  | .claiming host =>
      if e.running then some (e.goto i (.returned (.error .busy)))
      else some (({ e with running := true } : Engine).goto i
        (if host then .generating else .announcing false))
  | .generating =>
      if ok then some (e.goto i .binding)
      -- returns with `?`: the flag stays set
      else some (e.goto i (.returned (.error (.engine "generating host identity"))))
  | .binding => if ok then some (e.goto i .naming) else some (e.goto i .releasing)
  | .naming =>
      if ok then some (e.goto i (.announcing true))
      else some (e.goto i (.returned (.error (.engine "reading bound port"))))
  | .releasing =>
      some (({ e with running := false } : Engine).goto i
        (.returned (.error (.engine "binding port"))))
  | .announcing host => some ((e.store (startState host)).goto i (.telling host))
  | .telling host => some ((e.tell (startState host)).goto i .spawning)
  | .spawning =>
      some (({ e with tasks := e.tasks ++ [⟨.running, false⟩] } : Engine).goto i
        (.storing e.tasks.length))
  | .storing t =>
      if e.locked then none
      else some (({ e with task := some t } : Engine).goto i (.returned (.ok ())))
  | .taking =>
      if e.locked then none
      else match e.task with
        | none => some (e.goto i .clearing)
        | some t => some (({ e with task := none } : Engine).goto i (.aborting t))
  | .aborting t => some ((e.abort t).goto i .clearing)
  | .clearing =>
      if e.running then some (({ e with running := false } : Engine).goto i .cancelled)
      else some (e.goto i (.returned (.ok ())))
  | .cancelled => some ((e.store .cancelled).goto i .tellingCancelled)
  | .tellingCancelled => some ((e.tell .cancelled).goto i (.returned (.ok ())))
  | .returned _ => none

/-- What can happen next. -/
inductive Act where
  /-- a thread makes a call -/
  | enter (call : Call)
  | call (i : Nat) (ok : Bool)
  /-- the future of task `t` ends -/
  | finish (t : Nat) (ok : Bool)
  /-- an aborted task is dropped at an await -/
  | drop (t : Nat)
  /-- the reporter of task `t` clears the flag -/
  | release (t : Nat)
  /-- and tells the observer, twice -/
  | announce (t : Nat)
  | detail (t : Nat)
  deriving DecidableEq, Repr

/-- Where a call begins. -/
def entry : Call → CallPc
  | .startHostReceiving => .claiming true
  | .startHostSending => .claiming true
  | .startClientSending => .parsing
  | .startClientReceiving => .parsing
  | .cancel => .taking

def step (e : Engine) : Act → Option Engine
  | .enter call => some { e with calls := e.calls ++ [entry call] }
  | .call i ok =>
      match e.calls[i]? with
      | none => none
      | some pc => e.callStep i ok pc
  | .finish t ok =>
      match e.tasks[t]? with
      | some ⟨.running, aborted⟩ => some (e.setTask t ⟨.reporting ok, aborted⟩)
      | _ => none
  | .drop t =>
      match e.tasks[t]? with
      | some ⟨.running, true⟩ => some (e.setTask t ⟨.gone, true⟩)
      | _ => none
  | .release t =>
      match e.tasks[t]? with
      | some ⟨.reporting ok, aborted⟩ =>
          some (({ e with running := false } : Engine).setTask t ⟨.announcing ok, aborted⟩)
      | _ => none
  | .announce t =>
      match e.tasks[t]? with
      | some ⟨.announcing ok, aborted⟩ =>
          some ((e.tell (endState ok)).setTask t ⟨.detailing ok, aborted⟩)
      | _ => none
  | .detail t =>
      match e.tasks[t]? with
      | some ⟨.detailing _, aborted⟩ => some (e.setTask t ⟨.gone, aborted⟩)
      | _ => none

/-! ## What a step can do -/

/-- How a call goes on from its place. -/
inductive CallMove (e : Engine) (i : Nat) : Bool → CallPc → Engine → Prop where
  | parsed : CallMove e i true .parsing (e.goto i (.claiming false))
  | badFingerprint : CallMove e i false .parsing (e.goto i (.returned (.error .badFingerprint)))
  | busy {ok : Bool} (host : Bool) (hset : e.running = true) :
      CallMove e i ok (.claiming host) (e.goto i (.returned (.error .busy)))
  | claims {ok : Bool} (host : Bool) (hfree : e.running = false) :
      CallMove e i ok (.claiming host) (({ e with running := true } : Engine).goto i
        (if host then .generating else .announcing false))
  | generated : CallMove e i true .generating (e.goto i .binding)
  | noIdentity : CallMove e i false .generating
      (e.goto i (.returned (.error (.engine "generating host identity"))))
  | bound : CallMove e i true .binding (e.goto i .naming)
  | notBound : CallMove e i false .binding (e.goto i .releasing)
  | named : CallMove e i true .naming (e.goto i (.announcing true))
  | noAddress : CallMove e i false .naming
      (e.goto i (.returned (.error (.engine "reading bound port"))))
  | releases {ok : Bool} : CallMove e i ok .releasing
      (({ e with running := false } : Engine).goto i (.returned (.error (.engine "binding port"))))
  | stores {ok : Bool} (host : Bool) :
      CallMove e i ok (.announcing host) ((e.store (startState host)).goto i (.telling host))
  | tells {ok : Bool} (host : Bool) :
      CallMove e i ok (.telling host) ((e.tell (startState host)).goto i .spawning)
  | spawns {ok : Bool} : CallMove e i ok .spawning
      (({ e with tasks := e.tasks ++ [⟨.running, false⟩] } : Engine).goto i
        (.storing e.tasks.length))
  | started {ok : Bool} (t : Nat) : CallMove e i ok (.storing t)
      (({ e with task := some t } : Engine).goto i (.returned (.ok ())))
  | nothingToTake {ok : Bool} : CallMove e i ok .taking (e.goto i .clearing)
  | takes {ok : Bool} (t : Nat) : CallMove e i ok .taking
      (({ e with task := none } : Engine).goto i (.aborting t))
  | aborts {ok : Bool} (t : Nat) : CallMove e i ok (.aborting t) ((e.abort t).goto i .clearing)
  | clears {ok : Bool} (hset : e.running = true) : CallMove e i ok .clearing
      (({ e with running := false } : Engine).goto i .cancelled)
  | nothingToClear {ok : Bool} (hfree : e.running = false) :
      CallMove e i ok .clearing (e.goto i (.returned (.ok ())))
  | storesCancelled {ok : Bool} :
      CallMove e i ok .cancelled ((e.store .cancelled).goto i .tellingCancelled)
  | tellsCancelled {ok : Bool} : CallMove e i ok .tellingCancelled
      ((e.tell .cancelled).goto i (.returned (.ok ())))

theorem callStep_moves {e e' : Engine} {i : Nat} {ok : Bool} {pc : CallPc}
    (h : e.callStep i ok pc = some e') : CallMove e i ok pc e' := by
  cases pc with
  | claiming host =>
      simp only [callStep] at h
      split at h
      · next hset =>
          obtain rfl := Option.some.inj h
          exact .busy host hset
      · next hfree =>
          obtain rfl := Option.some.inj h
          exact .claims host (Bool.eq_false_iff.2 hfree)
  | storing t =>
      simp only [callStep] at h
      split at h
      · cases h
      · obtain rfl := Option.some.inj h
        exact .started t
  | taking =>
      simp only [callStep] at h
      split at h
      · cases h
      · split at h
        · obtain rfl := Option.some.inj h
          exact .nothingToTake
        · next t ht =>
            obtain rfl := Option.some.inj h
            exact .takes t
  | clearing =>
      simp only [callStep] at h
      split at h
      · next hset =>
          obtain rfl := Option.some.inj h
          exact .clears hset
      · next hfree =>
          obtain rfl := Option.some.inj h
          exact .nothingToClear (Bool.eq_false_iff.2 hfree)
  | returned result => cases h
  | _ =>
      -- the outcome of the operation, if it has one, says which way
      cases ok <;> obtain rfl := Option.some.inj h <;> constructor

/-- What a step does: a call comes in or goes on, or a task does. -/
inductive Move (e : Engine) : Act → Engine → Prop where
  | enters (call : Call) : Move e (.enter call) { e with calls := e.calls ++ [entry call] }
  | calls {i : Nat} {ok : Bool} {pc : CallPc} {e' : Engine} (hpc : e.calls[i]? = some pc)
      (hmove : CallMove e i ok pc e') : Move e (.call i ok) e'
  | finishes {t : Nat} (ok : Bool) {aborted : Bool}
      (hk : e.tasks[t]? = some ⟨.running, aborted⟩) :
      Move e (.finish t ok) (e.setTask t ⟨.reporting ok, aborted⟩)
  | drops {t : Nat} (hk : e.tasks[t]? = some ⟨.running, true⟩) :
      Move e (.drop t) (e.setTask t ⟨.gone, true⟩)
  | releases {t : Nat} {ok aborted : Bool} (hk : e.tasks[t]? = some ⟨.reporting ok, aborted⟩) :
      Move e (.release t)
        (({ e with running := false } : Engine).setTask t ⟨.announcing ok, aborted⟩)
  | announces {t : Nat} {ok aborted : Bool} (hk : e.tasks[t]? = some ⟨.announcing ok, aborted⟩) :
      Move e (.announce t) ((e.tell (endState ok)).setTask t ⟨.detailing ok, aborted⟩)
  | details {t : Nat} {ok aborted : Bool} (hk : e.tasks[t]? = some ⟨.detailing ok, aborted⟩) :
      Move e (.detail t) (e.setTask t ⟨.gone, aborted⟩)

theorem step_moves {e e' : Engine} {a : Act} (h : e.step a = some e') : Move e a e' := by
  cases a with
  | enter call =>
      obtain rfl := Option.some.inj h
      exact .enters call
  | call i ok =>
      simp only [step] at h
      split at h
      · cases h
      · next pc hpc => exact .calls hpc (callStep_moves h)
  | _ =>
      simp only [step] at h
      split at h
      · next hk =>
          obtain rfl := Option.some.inj h
          constructor
          exact hk
      · cases h

/-- The engines `e` can become. -/
def runs (e : Engine) (as : List Act) : Option Engine :=
  Run.runs step e as

/-! ## One transfer at a time -/

/-- Task `t` is live and not aborted. -/
def Live (e : Engine) (t : Nat) : Prop :=
  ∃ k, e.tasks[t]? = some k ∧ k.live = true

/-- **At most one transfer.** -/
def OneLive (e : Engine) : Prop :=
  ∀ t u, e.Live t → e.Live u → t = u

/-- How many own the session: calls between their claim and their spawn, and tasks that hold it. -/
def owners (e : Engine) : Nat :=
  e.calls.countP CallPc.holds + e.tasks.countP TransferTask.owns

/-- How many tasks are live and have handed the session back. -/
def lingering (e : Engine) : Nat :=
  e.tasks.countP TransferTask.lingers

/-- The flag is cleared over an owner: by `cancel`, or by a task that is not that owner. -/
def clearsOver (e : Engine) : Act → Bool
  | .call i _ =>
      match e.calls[i]? with
      | some .clearing => 0 < e.owners
      | _ => false
  | .release t =>
      match e.tasks[t]? with
      | some k => k.owns.toNat < e.owners
      | none => false
  | _ => false

/-- A call claims the session while the reporter of a live task is still telling its outcome. -/
def claimsOver (e : Engine) : Act → Bool
  | .call i _ =>
      match e.calls[i]? with
      | some (.claiming _) => !e.running && decide (0 < e.lingering)
      | _ => false
  | _ => false

end Engine

end AetherLink
