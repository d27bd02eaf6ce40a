import AetherLink.Proofs.Progress
import Mathlib.Data.List.Chain

set_option autoImplicit false

/-! # The rate of the throttle

A worker reads the clock, then `last_emit_micros`, and only then compares and swaps, so when it wins
the stamp it stores may be old. What rules out two wins within one interval is the swap itself: it
succeeds only on the value the check has compared with (`InHand`), so the stamp of the last winner is
the one the new stamp is an interval away from. The wins and the inner calls of a run are written down
along the way (`Calls`). -/

namespace AetherLink

namespace Reporting

/-! ## The calls of a run -/

/-- A call whose swap has succeeded. -/
structure Win where
  worker : Nat
  done : UInt64
  /-- what it has stored in `last_emit_micros` -/
  stamp : UInt64
  deriving DecidableEq, Repr

/-- What the calls of `on_progress` have come to. -/
structure Calls where
  wins : List Win
  /-- the calls of the inner sink, each with the worker that made it -/
  inner : List (Nat × UInt64)
  /-- how many calls have returned -/
  returned : Nat
  deriving DecidableEq, Repr

namespace Calls

def none : Calls :=
  { wins := [], inner := [], returned := 0 }

/-- Worker `i` takes its step at `pc`. -/
def next (calls : Calls) (r : Reporting) (i : Nat) : ReportPc → Calls
  | .idle | .enter _ | .load _ _ => calls
  | .check _ now last =>
      if last ≠ NEVER ∧ elapsed now last < r.interval then
        { calls with returned := calls.returned + 1 }
      else calls
  | .swap done now last =>
      if r.lastEmitMicros = last then { calls with wins := calls.wins ++ [⟨i, done, now⟩] }
      else { calls with returned := calls.returned + 1 }
  | .deliver done =>
      { calls with inner := calls.inner ++ [(i, done)], returned := calls.returned + 1 }

def after (calls : Calls) (r : Reporting) : Act → Calls
  | .tick _ => calls
  | .work i => (r.workers[i]?).elim calls fun w => calls.next r i w.pc

/-- The updates worker `i` has won with, first to last. -/
def winsOf (calls : Calls) (i : Nat) : List UInt64 :=
  (calls.wins.filter (·.worker = i)).map Win.done

/-- The updates worker `i` has passed to the inner sink, first to last. -/
def innerOf (calls : Calls) (i : Nat) : List UInt64 :=
  (calls.inner.filter (·.1 = i)).map Prod.snd

/-- A win is one more of its worker. -/
theorem winsOf_concat {l : List Win} {i j : Nat} {done stamp : UInt64} {inner : List (Nat × UInt64)}
    {n : Nat} :
    winsOf ⟨l ++ [⟨i, done, stamp⟩], inner, n⟩ j
      = winsOf ⟨l, inner, n⟩ j ++ if i = j then [done] else [] := by
  by_cases hij : i = j
  · simp [winsOf, List.filter_append, hij]
  · simp [winsOf, List.filter_append, hij]

/-- An inner call is one more of its worker. -/
theorem innerOf_concat {wins : List Win} {l : List (Nat × UInt64)} {i j : Nat} {done : UInt64}
    {n : Nat} :
    innerOf ⟨wins, l ++ [(i, done)], n⟩ j
        = innerOf ⟨wins, l, n⟩ j ++ if i = j then [done] else [] := by
  by_cases hij : i = j
  · simp [innerOf, List.filter_append, hij]
  · simp [innerOf, List.filter_append, hij]

end Calls

/-- The calls of a run from here. -/
def calls (r : Reporting) (as : List Act) : Calls :=
  Run.carry step Calls.after .none r as

/-- The update a worker has been let through with. -/
def waitingOf : ReportPc → List UInt64
  | .deliver done => [done]
  | _ => []

/-- The step does not enter `on_progress` with the final update. -/
def nonFinal (r : Reporting) : Act → Bool
  | .tick _ => true
  | .work i =>
      match (r.workers[i]?).map Worker.pc with
      | some (.enter done) => !r.isFinal done
      | _ => true

/-- **The throttle keeps its rate**: what its calls have come to, with `interval` in microseconds. -/
structure Paced (interval : Nat) (r : Reporting) (calls : Calls) : Prop where
  /-- a winner has stored its stamp, and no one else stores -/
  stored : r.lastEmitMicros = calls.wins.getLast?.elim NEVER Win.stamp
  /-- each stamp is at least the interval after the previous one -/
  apart : calls.wins.IsChain fun a b => a.stamp.toNat + interval ≤ b.stamp.toNat
  /-- a worker has called the inner sink once for each of its wins and for nothing else, short of the
      call it is about to make -/
  lanes : ∀ i w, r.workers[i]? = some w → calls.winsOf i = calls.innerOf i ++ waitingOf w.pc
  /-- and that call it can make whatever the others do -/
  goesOn : ∀ i w done, r.workers[i]? = some w → w.pc = .deliver done →
    ∃ r', r.step (.work i) = some r' ∧ r'.delivered = r.delivered ++ [done]
  /-- the inner sink has been told nothing else -/
  told : r.delivered = calls.inner.map Prod.snd
  /-- once a call has returned, some call has won -/
  first : 0 < calls.returned → calls.wins ≠ []

/-! ## What a worker has in hand -/

/-- What a worker inside `on_progress` has read. Short of the swap `last` may be anything that has been
    stored; the check has let `now` pass against it. -/
def InHand (r : Reporting) (calls : Calls) : ReportPc → Prop
  | .idle | .enter _ | .deliver _ => True
  | .load _ now => now.toNat ≤ r.clock
  | .check _ now last => now.toNat ≤ r.clock ∧ (last ≠ NEVER → calls.wins ≠ [])
  | .swap _ now last =>
      now.toNat ≤ r.clock ∧
        (last ≠ NEVER → calls.wins ≠ [] ∧ last.toNat + r.interval.toNat ≤ now.toNat)

theorem InHand.mono {r f : Reporting} {calls calls' : Calls} {pc : ReportPc} (h : InHand r calls pc)
    (hclock : r.clock ≤ f.clock) (hinterval : f.interval = r.interval)
    (hwins : calls.wins ≠ [] → calls'.wins ≠ []) : InHand f calls' pc := by
  cases pc with
  | idle => trivial
  | enter done => trivial
  | load done now => exact Nat.le_trans h hclock
  | check done now last => exact ⟨Nat.le_trans h.1 hclock, fun hlast => hwins (h.2 hlast)⟩
  | swap done now last =>
      refine ⟨Nat.le_trans h.1 hclock, fun hlast => ?_⟩
      rw [hinterval]
      exact ⟨hwins (h.2 hlast).1, (h.2 hlast).2⟩
  | deliver done => trivial

/-- What the check lets pass against a stored stamp is an interval past it: `saturating_sub` gives 0 for
    a stamp that is ahead of the clock the worker has read. -/
theorem le_of_elapsed {now last interval : UInt64} (hpos : 0 < interval)
    (h : ¬ elapsed now last < interval) : last.toNat + interval.toNat ≤ now.toNat := by
  have hle : interval ≤ elapsed now last := UInt64.not_lt.1 h
  rw [elapsed] at hle
  split at hle
  · exact absurd hpos (UInt64.not_lt.2 hle)
  · next hge =>
      have hsub : last ≤ now := UInt64.not_lt.1 hge
      rw [UInt64.le_iff_toNat_le, UInt64.toNat_sub_of_le _ _ hsub] at hle
      have := UInt64.le_iff_toNat_le.1 hsub
      omega

/-! ## One step -/

/-- The calls so far keep the rate, and no stamp is ahead of the clock. -/
structure Timed (r : Reporting) (calls : Calls) : Prop extends Paced r.interval.toNat r calls where
  stamps : ∀ x ∈ calls.wins, x.stamp.toNat ≤ r.clock
  hands : ∀ w ∈ r.workers, InHand r calls w.pc

/-- A worker that has been let through can call the inner sink. -/
theorem step_deliver {r : Reporting} {i : Nat} {w : Worker} {done : UInt64}
    (hw : r.workers[i]? = some w) (hpc : w.pc = .deliver done) :
    ∃ r', r.step (.work i) = some r' ∧ r'.delivered = r.delivered ++ [done] := by
  refine ⟨{ r with delivered := r.delivered ++ [done] }.setWorker i { w with pc := .idle }, ?_, rfl⟩
  simp only [step, hw, Option.bind_some, workerStep, hpc]

section

variable {r : Reporting} {calls : Calls} {i : Nat} {w : Worker}

/-- A worker of the state after a step of worker `i` is a worker it has not touched, or its own. -/
theorem getElem?_setWorker {f : Reporting} {j : Nat} {v w' : Worker} (hf : f.workers = r.workers)
    (h : (f.setWorker i w').workers[j]? = some v) :
    (i ≠ j ∧ r.workers[j]? = some v) ∨ (i = j ∧ v = w') := by
  rw [setWorker, hf] at h
  by_cases hij : i = j
  · subst hij
    have hlt := (List.getElem?_eq_some_iff.1 h).1
    rw [List.getElem?_set_self (by simpa using hlt), Option.some.injEq] at h
    exact .inr ⟨rfl, h.symm⟩
  · rw [List.getElem?_set_ne hij] at h
    exact .inl ⟨hij, h⟩

/-- A step inside `on_progress` that neither wins nor calls the inner sink. -/
theorem Timed.quiet (h : Timed r calls) (hw : r.workers[i]? = some w) (hlet : waitingOf w.pc = [])
    {f : Reporting} (hf : f = { r with counter := f.counter }) {w' : Worker}
    (hlet' : waitingOf w'.pc = []) (hhand : InHand r calls w'.pc) {calls' : Calls}
    (hcalls : calls' = { calls with returned := calls'.returned })
    (hfirst : 0 < calls'.returned → calls.wins ≠ []) : Timed (f.setWorker i w') calls' := by
  have hworkers : f.workers = r.workers := by rw [hf]
  have hlast : f.lastEmitMicros = r.lastEmitMicros := by rw [hf]
  have hdelivered : f.delivered = r.delivered := by rw [hf]
  have hclock : f.clock = r.clock := by rw [hf]
  have hinterval : f.interval = r.interval := by rw [hf]
  obtain ⟨wins, inner, n⟩ := calls'
  obtain ⟨rfl, rfl, -⟩ := Calls.mk.inj hcalls
  refine ⟨⟨hlast.trans h.stored, ?_, fun j v hj => ?_, fun j v done hj hpc => step_deliver hj hpc,
    hdelivered.trans h.told, hfirst⟩, fun x hx => ?_, fun v hv => ?_⟩
  · have hapart := h.apart
    rw [← hinterval] at hapart
    exact hapart
  · rcases getElem?_setWorker hworkers hj with ⟨-, hold⟩ | ⟨rfl, rfl⟩
    · exact h.lanes j v hold
    · have hlane := h.lanes i w hw
      rw [hlet] at hlane
      rw [hlet']
      exact hlane
  · exact (h.stamps x hx).trans_eq hclock.symm
  · have hmono : ∀ {pc}, InHand r calls pc → InHand f ⟨calls.wins, calls.inner, n⟩ pc :=
      fun hin => hin.mono (Nat.le_of_eq hclock.symm) hinterval id
    rw [setWorker, hworkers] at hv
    rcases List.mem_or_eq_of_mem_set hv with hold | rfl
    · exact hmono (h.hands v hold)
    · exact hmono hhand

/-- A worker wins its swap: its stamp is an interval after the last winner's. -/
theorem Timed.win (h : Timed r calls) (hclock : r.clock < NEVER.toNat) {done now last : UInt64}
    (hw : r.workers[i]? = some w) (hpc : w.pc = .swap done now last)
    (hlast : r.lastEmitMicros = last) :
    Timed ({ r with lastEmitMicros := now }.setWorker i { w with pc := .deliver done })
      { calls with wins := calls.wins ++ [⟨i, done, now⟩] } := by
  have hhand := h.hands w (List.mem_of_getElem? hw)
  rw [hpc] at hhand
  have hne : calls.wins ++ [⟨i, done, now⟩] ≠ [] := List.concat_ne_nil _ _
  refine ⟨⟨?_, ?_, fun j v hj => ?_, fun j v done hj hpc => step_deliver hj hpc, h.told,
    fun _ => hne⟩, fun x hx => ?_, fun v hv => ?_⟩
  · rw [List.getLast?_concat]
    rfl
  · refine h.apart.append (List.isChain_singleton _) fun x hx y hy => ?_
    obtain rfl := Option.some.inj hy
    -- the stored value is the stamp of the last winner, which is no `NEVER`
    have hstored := h.stored
    rw [Option.mem_def.1 hx, Option.elim_some, hlast] at hstored
    have hstamp := h.stamps x (List.mem_of_getLast? hx)
    refine hstored ▸ (hhand.2 ?_).2
    rintro rfl
    rw [← hstored] at hstamp
    omega
  · rw [Calls.winsOf_concat]
    rcases getElem?_setWorker (r := r) rfl hj with ⟨hij, hold⟩ | ⟨rfl, rfl⟩
    · rw [if_neg hij, List.append_nil]
      exact h.lanes j v hold
    · have hlane := h.lanes i w hw
      rw [hpc] at hlane
      rw [if_pos rfl]
      exact congrArg (· ++ [done]) (hlane.trans (List.append_nil _))
  · rcases List.mem_append.1 hx with hold | hnew
    · exact h.stamps x hold
    · obtain rfl := List.mem_singleton.1 hnew
      exact hhand.1
  · rcases List.mem_or_eq_of_mem_set hv with hold | rfl
    · exact (h.hands v hold).mono (Nat.le_refl _) rfl fun _ => hne
    · trivial

/-- A winner calls the inner sink. -/
theorem Timed.deliver (h : Timed r calls) {done : UInt64} (hw : r.workers[i]? = some w)
    (hpc : w.pc = .deliver done) :
    Timed ({ r with delivered := r.delivered ++ [done] }.setWorker i { w with pc := .idle })
      { calls with inner := calls.inner ++ [(i, done)], returned := calls.returned + 1 } := by
  have hlane := h.lanes i w hw
  rw [hpc, waitingOf] at hlane
  refine ⟨⟨h.stored, h.apart, fun j v hj => ?_, fun j v done hj hpc => step_deliver hj hpc, ?_,
    fun _ hnil => ?_⟩, h.stamps, fun v hv => ?_⟩
  · rw [Calls.innerOf_concat]
    rcases getElem?_setWorker (r := r) rfl hj with ⟨hij, hold⟩ | ⟨rfl, rfl⟩
    · rw [if_neg hij, List.append_nil]
      exact h.lanes j v hold
    · rw [if_pos rfl]
      exact hlane.trans (List.append_nil _).symm
  · rw [List.map_append, ← h.told]
    rfl
  · -- it has won, since it is about to call
    have hnone : calls.winsOf i = [] := by
      rw [Calls.winsOf, hnil, List.filter_nil, List.map_nil]
    rw [hnone] at hlane
    exact List.concat_ne_nil _ _ hlane.symm
  · rcases List.mem_or_eq_of_mem_set hv with hold | rfl
    · exact (h.hands v hold).mono (Nat.le_refl _) rfl id
    · trivial

end

theorem step_clock {r r' : Reporting} {a : Act} (h : r.step a = some r') :
    r.clock ≤ r'.clock ∧ r'.interval = r.interval := by
  cases a with
  | tick micros =>
      obtain rfl := Option.some.inj h
      exact ⟨Nat.le_add_right _ _, rfl⟩
  | work i =>
      obtain ⟨w, -, hmove⟩ := step_moves h
      cases hmove <;> exact ⟨Nat.le_refl _, rfl⟩

/-- **Every step keeps the rate**, as long as no final update comes in. -/
theorem Timed.step {r r' : Reporting} {calls : Calls} {a : Act} (h : Timed r calls)
    (hpos : 0 < r.interval) (hclock : r.clock < NEVER.toNat) (hfinal : r.nonFinal a = true)
    (hstep : r.step a = some r') : Timed r' (calls.after r a) := by
  cases a with
  | tick micros =>
      obtain rfl := Option.some.inj hstep
      have hlater : r.clock ≤ r.clock + micros := Nat.le_add_right _ _
      refine ⟨⟨h.stored, h.apart, h.lanes, fun j v done hj hpc => step_deliver hj hpc, h.told,
          h.first⟩,
        fun x hx => (h.stamps x hx).trans hlater, fun v hv => (h.hands v hv).mono hlater rfl id⟩
  | work i =>
      obtain ⟨w, hw, hstep⟩ := Option.bind_eq_some_iff.1 hstep
      have hhand := h.hands w (List.mem_of_getElem? hw)
      simp only [Calls.after, hw, Option.elim_some]
      unfold workerStep at hstep
      cases hpc : w.pc with
      | idle =>
          rw [hpc] at hstep
          cases hchunks : w.chunks with
          | nil =>
              rw [hchunks] at hstep
              cases hstep
          | cons len rest =>
              rw [hchunks] at hstep
              obtain rfl := Option.some.inj hstep
              refine h.quiet hw (by rw [hpc]; rfl) rfl rfl ?_ rfl h.first
              trivial
      | enter done =>
          rw [hpc] at hstep
          obtain rfl := Option.some.inj hstep
          have hnot : r.isFinal done = false := by simpa [nonFinal, hw, hpc] using hfinal
          rw [hnot, if_neg Bool.false_ne_true]
          refine h.quiet hw (by rw [hpc]; rfl) rfl rfl ?_ rfl h.first
          exact Nat.mod_le _ _
      | load done now =>
          rw [hpc] at hstep hhand
          obtain rfl := Option.some.inj hstep
          refine h.quiet hw (by rw [hpc]; rfl) rfl rfl ?_ rfl h.first
          refine ⟨hhand, fun hlast hnil => hlast ?_⟩
          rw [h.stored, hnil]
          rfl
      | check done now last =>
          rw [hpc] at hstep hhand
          obtain rfl := Option.some.inj hstep
          rw [Calls.next]
          by_cases hsoon : last ≠ NEVER ∧ elapsed now last < r.interval
          · rw [if_pos hsoon, if_pos hsoon]
            refine h.quiet hw (by rw [hpc]; rfl) rfl rfl ?_ rfl fun _ => hhand.2 hsoon.1
            trivial
          · rw [if_neg hsoon, if_neg hsoon]
            refine h.quiet hw (by rw [hpc]; rfl) rfl rfl ?_ rfl h.first
            exact ⟨hhand.1, fun hlast =>
              ⟨hhand.2 hlast, le_of_elapsed hpos fun hlt => hsoon ⟨hlast, hlt⟩⟩⟩
      | swap done now last =>
          rw [hpc] at hstep hhand
          obtain rfl := Option.some.inj hstep
          rw [Calls.next]
          by_cases hlast : r.lastEmitMicros = last
          · rw [if_pos hlast, if_pos hlast]
            exact h.win hclock hw hpc hlast
          · rw [if_neg hlast, if_neg hlast]
            refine h.quiet hw (by rw [hpc]; rfl) rfl rfl (by trivial) rfl fun _ => ?_
            -- one of the two values is a stamp
            by_cases hnever : last = NEVER
            · intro hnil
              refine hlast (Eq.trans ?_ hnever.symm)
              rw [h.stored, hnil]
              rfl
            · exact (hhand.2 hnever).1
      | deliver done =>
          rw [hpc] at hstep
          obtain rfl := Option.some.inj hstep
          exact h.deliver hw hpc

/-! ## Runs -/

theorem timed_start (seed total interval : UInt64) (chunks : List (List UInt64)) :
    Timed (start seed total interval chunks) .none := by
  have hidle : ∀ w ∈ (start seed total interval chunks).workers, w.pc = .idle := fun w hw => by
    obtain ⟨l, -, rfl⟩ := List.mem_map.1 hw
    rfl
  refine ⟨⟨rfl, .nil, fun j v hj => ?_, fun j v done hj hpc => step_deliver hj hpc, rfl,
    fun hlt => absurd hlt (Nat.lt_irrefl 0)⟩, fun x hx => absurd hx List.not_mem_nil, fun v hv => ?_⟩
  · rw [hidle v (List.mem_of_getElem? hj)]
    rfl
  · rw [hidle v hv]
    trivial

/-- Every run without a final update keeps the rate while the clock fits. -/
theorem timed_runs {seed total interval : UInt64} (hpos : 0 < interval) {chunks : List (List UInt64)}
    {as : List Act} {r : Reporting} (h : (start seed total interval chunks).runs as = some r)
    (hfinal : Run.Meets step (fun r a => r.nonFinal a = true) (start seed total interval chunks) as) :
    r.interval = interval ∧
      (r.clock < NEVER.toNat → Timed r ((start seed total interval chunks).calls as)) :=
  Run.invariant_carry_of
    (I := fun s calls => s.interval = interval ∧ (s.clock < NEVER.toNat → Timed s calls))
    Calls.after (fun s calls a s' hs hnot hstep => by
      obtain ⟨hle, hinterval⟩ := step_clock hstep
      refine ⟨hinterval.trans hs.1, fun hlt => ?_⟩
      have hbefore := Nat.lt_of_le_of_lt hle hlt
      exact (hs.2 hbefore).step (hs.1.symm ▸ hpos) hbefore hnot hstep)
    ⟨rfl, fun _ => timed_start seed total interval chunks⟩ hfinal h

/-- Stamps that are a truncated interval apart are the interval apart, if it is truncated to itself or
    to the largest `u64`, which is more than a clock can show. -/
theorem Timed.paced {r : Reporting} {calls : Calls} (h : Timed r calls)
    (hclock : r.clock < NEVER.toNat) {interval : Nat}
    (hinterval : r.interval.toNat = interval ∨ r.interval = NEVER) : Paced interval r calls := by
  refine ⟨h.stored, ?_, h.lanes, h.goesOn, h.told, h.first⟩
  refine h.apart.imp_of_mem_imp fun a b ha hb hab => ?_
  rcases hinterval with rfl | hmax
  · exact hab
  · have := h.stamps b hb
    rw [hmax] at hab
    omega

/-! ## A truncated interval -/

theorem elapsed_zero (now : UInt64) : elapsed now 0 = now := by
  rw [elapsed, if_neg (UInt64.not_lt.2 UInt64.zero_le), UInt64.sub_zero]

/-- With a total of 0 no update is final. -/
theorem nonFinal_of_total {r : Reporting} (h : r.total = 0) (as : List Act) :
    Run.Meets step (fun r a => r.nonFinal a = true) r as := by
  refine Run.Meets.of_invariant (I := fun r => r.total = 0) (fun s a s' hs hstep => ?_)
    (fun s a hs => ?_) h as
  · cases a with
    | tick micros => exact Option.some.inj hstep ▸ hs
    | work i =>
        obtain ⟨w, -, hmove⟩ := step_moves hstep
        cases hmove <;> exact hs
  · cases a with
    | tick micros => rfl
    | work i =>
        simp only [nonFinal]
        split
        · rw [isFinal, hs]
          rfl
        · rfl

/-- One worker reports a byte, `micros` pass, and another has come to its check. -/
def oneReport (micros : Nat) : List Act :=
  List.replicate 6 (.work 0) ++ .tick micros :: List.replicate 3 (.work 1)

/-- And passes it and wins. -/
def twoReports (micros : Nat) : List Act :=
  oneReport micros ++ List.replicate 2 (.work 1)

section

variable (interval : UInt64)

/-- The second worker is about to compare the clock with the first one's stamp. -/
def secondChecks : Reporting :=
  { total := 0, counter := 2, clock := 0 + interval.toNat, interval := interval, lastEmitMicros := 0,
    delivered := [1],
    workers := [⟨[], .idle⟩, ⟨[], .check 2 (UInt64.ofNat (0 + interval.toNat)) 0⟩] }

theorem runs_oneReport :
    (start 0 0 interval [[1], [1]]).runs (oneReport interval.toNat) = some (secondChecks interval) :=
  rfl

/-- The check lets it pass: what has passed is just the interval. -/
theorem secondChecks_passes :
    ¬ ((0 : UInt64) ≠ NEVER ∧
      elapsed (UInt64.ofNat (0 + interval.toNat)) 0 < (secondChecks interval).interval) := by
  rw [elapsed_zero, Nat.zero_add, UInt64.ofNat_toNat]
  exact fun h => UInt64.lt_irrefl _ h.2

theorem step_secondChecks :
    (secondChecks interval).step (.work 1) = some ((secondChecks interval).setWorker 1
      ⟨[], .swap 2 (UInt64.ofNat (0 + interval.toNat)) 0⟩) := by
  refine congrArg (fun pc => some ((secondChecks interval).setWorker 1 ⟨[], pc⟩)) ?_
  exact if_neg (secondChecks_passes interval)

/-- The second one wins as soon as the interval the code compares with has passed. -/
theorem runs_twoReports : ∃ r,
    (start 0 0 interval [[1], [1]]).runs (twoReports interval.toNat) = some r ∧
      r.clock = interval.toNat ∧
      (start 0 0 interval [[1], [1]]).calls (twoReports interval.toNat)
        = ⟨[⟨0, 1, 0⟩, ⟨1, 2, interval⟩], [(0, 1)], 1⟩ := by
  refine ⟨{ secondChecks interval with lastEmitMicros := UInt64.ofNat (0 + interval.toNat) }.setWorker 1
    ⟨[], .deliver 2⟩, ?_, Nat.zero_add _, ?_⟩
  · rw [runs, twoReports, Run.runs_append, ← runs, runs_oneReport, Option.bind_some, List.replicate,
      Run.runs_cons, step_secondChecks, Option.bind_some]
    rfl
  · rw [calls, twoReports, Run.carry_append _ (runs_oneReport interval), List.replicate, Run.carry,
      step_secondChecks, Option.elim_some]
    have hcheck : ∀ calls : Calls, calls.after (secondChecks interval) (.work 1) = calls :=
      fun calls => if_neg (secondChecks_passes interval)
    have hnow : UInt64.ofNat (0 + interval.toNat) = interval := by
      rw [Nat.zero_add, UInt64.ofNat_toNat]
    rw [hcheck]
    exact congrArg (fun stamp => Calls.mk [⟨0, 1, 0⟩, ⟨1, 2, stamp⟩] [(0, 1)] 1) hnow

end

/-- The two stamps are no further apart than the truncated interval. -/
theorem not_paced_twoReports {interval : Nat} {micros : UInt64} (hlt : micros.toNat < interval)
    (r : Reporting) :
    ¬ Paced interval r ((start 0 0 micros [[1], [1]]).calls (twoReports micros.toNat)) := by
  intro h
  obtain ⟨-, -, -, hcalls⟩ := runs_twoReports micros
  have hapart := h.apart
  rw [hcalls, List.isChain_pair] at hapart
  have hle : 0 + interval ≤ micros.toNat := hapart
  omega

end Reporting

/-- **When the throttle keeps its rate.** For every interval of a microsecond or more: in every run
    without a final update the stamps of successive winners are at least the interval apart, every win
    leads to one inner call and nothing else does, and someone wins before anyone has returned, if and
    only if the interval is its own truncation to a `u64` of microseconds, or that truncation is more
    than a clock can show. -/
theorem throttle_keeps_rate_iff {interval : Duration} (hpos : 1 ≤ interval.asMicros) :
    (∀ (seed total : UInt64) (chunks : List (List UInt64)) (as : List Reporting.Act) (r : Reporting),
      (Reporting.throttled seed total interval chunks).runs as = some r →
      Run.Meets Reporting.step (fun r a => r.nonFinal a = true)
        (Reporting.throttled seed total interval chunks) as →
      r.clock < Reporting.NEVER.toNat →
      Reporting.Paced interval.asMicros r
        ((Reporting.throttled seed total interval chunks).calls as)) ↔
    interval.asMicros < 18446744073709551616 ∨
      interval.asMicros % 18446744073709551616 = 18446744073709551615 := by
  have htoNat : (UInt64.ofNat interval.asMicros).toNat = interval.asMicros % 18446744073709551616 :=
    UInt64.toNat_ofNat'
  constructor
  · intro h
    by_contra hnot
    obtain ⟨hle, hmax⟩ := not_or.1 hnot
    have hclock : (UInt64.ofNat interval.asMicros).toNat < Reporting.NEVER.toNat := by
      rw [htoNat]
      have : interval.asMicros % 18446744073709551616 < 18446744073709551616 :=
        Nat.mod_lt _ (by decide)
      have hnever : Reporting.NEVER.toNat = 18446744073709551615 := rfl
      omega
    have hshort : (UInt64.ofNat interval.asMicros).toNat < interval.asMicros := by omega
    obtain ⟨r, hrun, hr, -⟩ := Reporting.runs_twoReports (UInt64.ofNat interval.asMicros)
    exact Reporting.not_paced_twoReports hshort r
      (h 0 0 [[1], [1]] _ r hrun (Reporting.nonFinal_of_total rfl _) (hr ▸ hclock))
  · intro hfits seed total chunks as r hrun hfinal hclock
    have hne : 0 < UInt64.ofNat interval.asMicros := by
      rw [UInt64.lt_iff_toNat_lt, htoNat]
      exact hfits.elim (fun hlt => by rw [Nat.mod_eq_of_lt hlt]; exact hpos) fun hmax => by
        rw [hmax]
        decide
    obtain ⟨hinterval, htimed⟩ := Reporting.timed_runs hne hrun hfinal
    refine (htimed hclock).paced hclock (hfits.imp (fun hlt => ?_) fun hmax => ?_)
    · rw [hinterval, htoNat, Nat.mod_eq_of_lt hlt]
    · rw [hinterval, ← UInt64.toNat_inj, htoNat, hmax]
      rfl

/-- A tenth of a second fits the clock, and is kept. -/
theorem throttle_keeps_rate_iff_default :
    Reporting.DEFAULT_INTERVAL.asMicros = 100000 ∧
    ∀ (seed total : UInt64) (chunks : List (List UInt64)) (as : List Reporting.Act) (r : Reporting),
      (Reporting.throttled seed total Reporting.DEFAULT_INTERVAL chunks).runs as = some r →
      Run.Meets Reporting.step (fun r a => r.nonFinal a = true)
        (Reporting.throttled seed total Reporting.DEFAULT_INTERVAL chunks) as →
      r.clock < Reporting.NEVER.toNat →
      Reporting.Paced Reporting.DEFAULT_INTERVAL.asMicros r
        ((Reporting.throttled seed total Reporting.DEFAULT_INTERVAL chunks).calls as) :=
  ⟨by decide, (throttle_keeps_rate_iff (by decide)).2 (Or.inl (by decide))⟩

/-- The interval of 2^64 microseconds, some 584542 years. -/
def wholeClock : Duration :=
  ⟨18446744073709, 551616000, by decide⟩

/-- It is truncated to nothing, so two updates pass within the same microsecond. -/
theorem truncated_interval_lets_through :
    ∃ as r, (Reporting.throttled 0 0 wholeClock [[1], [1]]).runs as = some r ∧
      Run.Meets Reporting.step (fun r a => r.nonFinal a = true)
        (Reporting.throttled 0 0 wholeClock [[1], [1]]) as ∧
      r.clock = 0 ∧
      ((Reporting.throttled 0 0 wholeClock [[1], [1]]).calls as).wins = [⟨0, 1, 0⟩, ⟨1, 2, 0⟩] ∧
      ¬ Reporting.Paced wholeClock.asMicros r
        ((Reporting.throttled 0 0 wholeClock [[1], [1]]).calls as) := by
  have hnone : Reporting.throttled 0 0 wholeClock [[1], [1]] = .start 0 0 0 [[1], [1]] := by
    decide +kernel
  rw [hnone]
  obtain ⟨r, hrun, hclock, hcalls⟩ := Reporting.runs_twoReports 0
  exact ⟨_, r, hrun, Reporting.nonFinal_of_total rfl _, hclock, congrArg Reporting.Calls.wins hcalls,
    Reporting.not_paced_twoReports (by decide) r⟩

end AetherLink
