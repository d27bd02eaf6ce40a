import AetherLink.Lib.Run

set_option autoImplicit false

/-! # Progress reporting

`Throttled` passes an update on to the inner sink at most once in an interval, and the final one
always. Workers call it with what their own `fetch_add` has made of the shared counter. The load, the
check, the swap and the inner call are separate steps, so between any two of them other workers may
act and time may pass. -/

namespace AetherLink

/-- `std::time::Duration`. -/
structure Duration where
  secs : UInt64
  nanos : UInt32
  subsecond : nanos < 1000000000
  deriving DecidableEq, Repr

/-- `as_micros`, a `u128`. -/
def Duration.asMicros (d : Duration) : Nat :=
  d.secs.toNat * 1000000 + d.nanos.toNat / 1000

/-- Where a worker is between the chunks it completes. -/
inductive ReportPc where
  /-- between two calls of `on_progress` -/
  | idle
  /-- `on_progress(done, total)`: about to look whether it is the final update, and at the clock -/
  | enter (done : UInt64)
  | load (done now : UInt64)
  | check (done now last : UInt64)
  | swap (done now last : UInt64)
  /-- about to call the inner sink -/
  | deliver (done : UInt64)
  deriving DecidableEq, Repr

structure Reporting.Worker where
  /-- the lengths of the chunks it has still to complete -/
  chunks : List UInt64
  pc : ReportPc
  deriving DecidableEq, Repr

/-- The workers of a session with their counter and their `Throttled`. -/
structure Reporting where
  total : UInt64
  counter : UInt64
  /-- microseconds since `origin` -/
  clock : Nat
  interval : UInt64
  lastEmitMicros : UInt64
  /-- what the inner sink has been told, first to last -/
  delivered : List UInt64
  workers : List Reporting.Worker
  deriving DecidableEq, Repr

namespace Reporting

/-- No update has been emitted yet. -/
def NEVER : UInt64 :=
  0xFFFFFFFFFFFFFFFF

/-- Workers that are about to complete these chunks. -/
def start (seed total interval : UInt64) (chunks : List (List UInt64)) : Reporting :=
  { total := total, counter := seed, clock := 0, interval := interval, lastEmitMicros := NEVER,
    delivered := [], workers := chunks.map fun chunks => { chunks := chunks, pc := .idle } }

/-- 100 ms. -/
def DEFAULT_INTERVAL : Duration :=
  ⟨0, 100000000, by decide⟩

/-- Workers that report through `Throttled::new(inner, interval)`: every call takes the interval as
    `as_micros() as u64`. -/
def throttled (seed total : UInt64) (interval : Duration) (chunks : List (List UInt64)) : Reporting :=
  start seed total (UInt64.ofNat interval.asMicros) chunks

/-- `is_final`. -/
def isFinal (r : Reporting) (done : UInt64) : Bool :=
  0 < r.total && r.total ≤ done

/-- `now.saturating_sub(last)`. -/
def elapsed (now last : UInt64) : UInt64 :=
  if now < last then 0 else now - last

def setWorker (r : Reporting) (i : Nat) (w : Worker) : Reporting :=
  { r with workers := r.workers.set i w }

/-- One step of worker `i`. -/
def workerStep (r : Reporting) (i : Nat) (w : Worker) : Option Reporting :=
  match w.pc with
  | .idle =>
      match w.chunks with
      | [] => none
      | len :: rest =>
          let done := r.counter + len
          some ({ r with counter := done }.setWorker i { chunks := rest, pc := .enter done })
  | .enter done =>
      some (r.setWorker i { w with
        pc := if r.isFinal done then .deliver done else .load done (UInt64.ofNat r.clock) })
  | .load done now => some (r.setWorker i { w with pc := .check done now r.lastEmitMicros })
  | .check done now last =>
      some (r.setWorker i { w with
        pc := if last ≠ NEVER ∧ elapsed now last < r.interval then .idle else .swap done now last })
  | .swap done now last =>
      some (if r.lastEmitMicros = last then
        { r with lastEmitMicros := now }.setWorker i { w with pc := .deliver done }
      else r.setWorker i { w with pc := .idle })
  | .deliver done =>
      some ({ r with delivered := r.delivered ++ [done] }.setWorker i { w with pc := .idle })

inductive Act where
  /-- time passes -/
  | tick (micros : Nat)
  | work (i : Nat)
  deriving DecidableEq, Repr

def step (r : Reporting) : Act → Option Reporting
  | .tick micros => some { r with clock := r.clock + micros }
  | .work i => (r.workers[i]?).bind (r.workerStep i)

def runs (r : Reporting) (as : List Act) : Option Reporting :=
  Run.runs step r as

/-- Every worker has completed its chunks and returned from its calls. -/
def Done (r : Reporting) : Prop :=
  ∀ w ∈ r.workers, w.chunks = [] ∧ w.pc = .idle

instance (r : Reporting) : Decidable r.Done :=
  inferInstanceAs (Decidable (∀ w ∈ r.workers, w.chunks = [] ∧ w.pc = .idle))

/-- **Delivered values never decrease.** -/
def Increasing (r : Reporting) : Prop :=
  r.delivered.Pairwise (· ≤ ·)

/-- The updates that have been let through and not delivered. -/
def waiting (r : Reporting) : List UInt64 :=
  r.workers.filterMap fun w =>
    match w.pc with
    | .deliver done => some done
    | _ => none

/-- The step lets no update through that is smaller than a delivered one, and delivers none while a
    smaller one waits. -/
def orderly (r : Reporting) : Act → Bool
  | .tick _ => true
  | .work i =>
      match (r.workers[i]?).map Worker.pc with
      | some (.swap done _ last) =>
          r.lastEmitMicros != last || r.delivered.all (· ≤ done)
      | some (.deliver done) => r.waiting.all (done ≤ ·)
      | _ => true

end Reporting

end AetherLink
