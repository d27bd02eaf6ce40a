import AetherLink.Core.Progress
import AetherLink.Lib.Tally

set_option autoImplicit false

/-! # Progress ends at the end

The final update passes the throttle whatever the others do, so it is always delivered; the question
is what is delivered after it, and in what order. An update that waits while a larger one is
delivered will come after it (`Reporting.Doomed`); short of that, delivered values never decrease. -/

namespace AetherLink

/-- The update the worker has in hand. -/
def ReportPc.update : ReportPc → Option UInt64
  | .idle => none
  | .enter done => some done
  | .load done _ => some done
  | .check done _ _ => some done
  | .swap done _ _ => some done
  | .deliver done => some done

namespace Reporting

/-! ## What a step does -/

/-- What a step of worker `i`, which is `w`, can be. -/
inductive Move (r : Reporting) (i : Nat) (w : Worker) : Reporting → Prop where
  /-- the worker has completed a chunk -/
  | completes {len : UInt64} {rest : List UInt64} (pc : w.pc = .idle)
      (chunks : w.chunks = len :: rest) :
      Move r i w ({ r with counter := r.counter + len }.setWorker i
        { chunks := rest, pc := .enter (r.counter + len) })
  /-- the worker goes on inside `on_progress`, or returns without passing its update on -/
  | goesOn (pc' : ReportPc) (update : ∀ d, pc'.update = some d → w.pc.update = some d)
      (final : ∀ d, w.pc = .enter d → r.isFinal d = false)
      (lost : ∀ d now last, w.pc = .swap d now last → r.lastEmitMicros ≠ last)
      (pc : ∀ d, w.pc ≠ .deliver d)
      (enter : ∀ d, pc' ≠ .enter d) (deliver : ∀ d, pc' ≠ .deliver d) :
      Move r i w (r.setWorker i { w with pc := pc' })
  /-- the final update passes -/
  | passes {done : UInt64} (pc : w.pc = .enter done) (final : r.isFinal done = true) :
      Move r i w (r.setWorker i { w with pc := .deliver done })
  /-- the update wins its swap -/
  | wins {done now last : UInt64} (pc : w.pc = .swap done now last)
      (hlast : r.lastEmitMicros = last) :
      Move r i w ({ r with lastEmitMicros := now }.setWorker i { w with pc := .deliver done })
  | delivers {done : UInt64} (pc : w.pc = .deliver done) :
      Move r i w ({ r with delivered := r.delivered ++ [done] }.setWorker i { w with pc := .idle })

theorem step_moves {r r' : Reporting} {i : Nat} (h : r.step (.work i) = some r') :
    ∃ w, r.workers[i]? = some w ∧ Move r i w r' := by
  obtain ⟨w, hw, hstep⟩ := Option.bind_eq_some_iff.1 h
  refine ⟨w, hw, ?_⟩
  unfold workerStep at hstep
  split at hstep
  · next hpc =>
      split at hstep
      · cases hstep
      · next len rest hchunks =>
          obtain rfl := Option.some.inj hstep
          exact .completes hpc hchunks
  · next done hpc =>
      obtain rfl := Option.some.inj hstep
      by_cases hfinal : r.isFinal done = true
      · rw [if_pos hfinal]
        exact .passes hpc hfinal
      · rw [if_neg hfinal]
        refine .goesOn _ (fun d hd => ?_) (fun d hd => ?_) (by simp [hpc]) (by simp [hpc]) (by simp)
          (by simp)
        · rw [hpc]
          exact hd
        · rw [hpc] at hd
          cases hd
          exact Bool.eq_false_iff.2 hfinal
  · next done now hpc =>
      obtain rfl := Option.some.inj hstep
      exact .goesOn _ (fun d hd => by rw [hpc]; exact hd) (by simp [hpc]) (by simp [hpc])
        (by simp [hpc]) (by simp) (by simp)
  · next done now last hpc =>
      obtain rfl := Option.some.inj hstep
      by_cases hsoon : last ≠ NEVER ∧ elapsed now last < r.interval
      · rw [if_pos hsoon]
        exact .goesOn _ (fun d hd => by cases hd) (by simp [hpc]) (by simp [hpc]) (by simp [hpc])
          (by simp) (by simp)
      · rw [if_neg hsoon]
        exact .goesOn _ (fun d hd => by rw [hpc]; exact hd) (by simp [hpc]) (by simp [hpc])
          (by simp [hpc]) (by simp) (by simp)
  · next done now last hpc =>
      obtain rfl := Option.some.inj hstep
      by_cases hlast : r.lastEmitMicros = last
      · rw [if_pos hlast]
        exact .wins hpc hlast
      · rw [if_neg hlast]
        refine .goesOn _ (fun d hd => by cases hd) (by simp [hpc]) (fun d n l hd => ?_)
            (by simp [hpc])
          (by simp) (by simp)
        rw [hpc] at hd
        cases hd
        exact hlast
  · next done hpc =>
      obtain rfl := Option.some.inj hstep
      exact .delivers hpc

/-! ## Waiting updates -/

theorem mem_waiting {r : Reporting} {d : UInt64} :
    d ∈ r.waiting ↔ ∃ w ∈ r.workers, w.pc = .deliver d := by
  simp only [waiting, List.mem_filterMap]
  refine exists_congr fun w => and_congr_right fun _ => ?_
  cases w.pc <;> simp

section

variable {r f : Reporting} {i : Nat} {w w' : Worker} {d : UInt64}

/-- An update that waits after the step has waited before, or is the worker's. -/
theorem waiting_of_set (hf : f.workers = r.workers) (h : d ∈ (f.setWorker i w').waiting) :
    d ∈ r.waiting ∨ w'.pc = .deliver d := by
  obtain ⟨v, hv, hpc⟩ := mem_waiting.1 h
  rw [setWorker, hf] at hv
  rcases List.mem_or_eq_of_mem_set hv with hold | rfl
  · exact .inl (mem_waiting.2 ⟨v, hold, hpc⟩)
  · exact .inr hpc

/-- An update goes on waiting unless it is the worker's. -/
theorem waiting_set (hf : f.workers = r.workers) (hw : r.workers[i]? = some w)
    (h : d ∈ r.waiting) (hne : w.pc ≠ .deliver d) : d ∈ (f.setWorker i w').waiting := by
  obtain ⟨v, hv, hpc⟩ := mem_waiting.1 h
  obtain ⟨j, hj⟩ := List.mem_iff_getElem?.1 hv
  have hij : i ≠ j := by
    rintro rfl
    obtain rfl := Option.some.inj (hw.symm.trans hj)
    exact hne hpc
  refine mem_waiting.2 ⟨v, List.mem_iff_getElem?.2 ⟨j, ?_⟩, hpc⟩
  rw [setWorker, hf, List.getElem?_set_ne hij]
  exact hj

theorem waiting_set_self (hf : f.workers = r.workers) (hw : r.workers[i]? = some w)
    (hpc : w'.pc = .deliver d) : d ∈ (f.setWorker i w').waiting := by
  have hlt : i < f.workers.length := hf ▸ (List.getElem?_eq_some_iff.1 hw).1
  exact mem_waiting.2 ⟨w', List.mem_set hlt w', hpc⟩

end

/-! ## Nothing exceeds the total -/

/-- The bytes of the chunks that are still to be completed. -/
def remaining (r : Reporting) : Nat :=
  (r.workers.map fun w => (w.chunks.map UInt64.toNat).sum).sum

/-- The counter is short of the total by the chunks that remain, and no update is ahead of it. -/
structure Bounded (r : Reporting) : Prop where
  sum : r.counter.toNat + r.remaining = r.total.toNat
  updates : ∀ w ∈ r.workers, ∀ d, w.pc.update = some d → d ≤ r.counter
  delivered : ∀ d ∈ r.delivered, d ≤ r.counter

/-- A worker keeps its chunks, and has no other update in hand than before. -/
theorem Bounded.setWorker {r f : Reporting} {i : Nat} {w : Worker} (h : r.Bounded)
    (hw : r.workers[i]? = some w) (hworkers : f.workers = r.workers)
    (hcounter : f.counter = r.counter) (htotal : f.total = r.total)
    (hdelivered : ∀ d ∈ f.delivered, d ∈ r.delivered ∨ w.pc.update = some d) (pc' : ReportPc)
    (hupdate : ∀ d, pc'.update = some d → w.pc.update = some d) :
    (f.setWorker i { w with pc := pc' }).Bounded := by
  have hmem := List.mem_of_getElem? hw
  have hset := List.sum_map_set hw { w with pc := pc' } fun w => (w.chunks.map UInt64.toNat).sum
  have hcounter' : (f.setWorker i { w with pc := pc' }).counter = r.counter := hcounter
  refine ⟨?_, fun v hv d hd => ?_, fun d hd => ?_⟩
  · have hremaining : (f.setWorker i { w with pc := pc' }).remaining = r.remaining := by
      rw [remaining, Reporting.setWorker, hworkers]
      exact Nat.add_right_cancel hset
    rw [hremaining, hcounter', h.sum, ← htotal]
    rfl
  · rw [Reporting.setWorker, hworkers] at hv
    rw [hcounter']
    rcases List.mem_or_eq_of_mem_set hv with hold | rfl
    · exact h.updates v hold d hd
    · exact h.updates w hmem d (hupdate d hd)
  · rw [hcounter']
    exact (hdelivered d hd).elim (h.delivered d) (h.updates w hmem d)

/-- A worker adds a chunk to the counter. -/
theorem Bounded.completes {r : Reporting} {i : Nat} {w : Worker} {len : UInt64} {rest : List UInt64}
    (h : r.Bounded) (hw : r.workers[i]? = some w) (hchunks : w.chunks = len :: rest) :
    ({ r with counter := r.counter + len }.setWorker i
      { chunks := rest, pc := .enter (r.counter + len) }).Bounded := by
  have hset := List.sum_map_set hw { chunks := rest, pc := .enter (r.counter + len) }
    fun w => (w.chunks.map UInt64.toNat).sum
  simp only [hchunks, List.map_cons, List.sum_cons] at hset
  have hsum := h.sum
  rw [remaining] at hsum
  have htotal := r.total.toNat_lt
  have hadd : (r.counter + len).toNat = r.counter.toNat + len.toNat := by
    rw [UInt64.toNat_add, Nat.mod_eq_of_lt (by omega)]
  have hle : r.counter ≤ r.counter + len := UInt64.le_iff_toNat_le.2 (by omega)
  refine ⟨?_, fun v hv d hd => ?_, fun d hd => ?_⟩
  · have hcounter : ({ r with counter := r.counter + len }.setWorker i
        { chunks := rest, pc := .enter (r.counter + len) }).counter.toNat
          = r.counter.toNat + len.toNat := hadd
    rw [hcounter, remaining]
    simp only [Reporting.setWorker]
    omega
  · rcases List.mem_or_eq_of_mem_set hv with hold | rfl
    · exact UInt64.le_trans (h.updates v hold d hd) hle
    · exact (Option.some.inj hd) ▸ UInt64.le_refl _
  · exact UInt64.le_trans (h.delivered d hd) hle

theorem Bounded.step {r r' : Reporting} {a : Act} (h : r.Bounded) (hstep : r.step a = some r') :
    r'.Bounded := by
  cases a with
  | tick micros =>
      obtain rfl := Option.some.inj hstep
      exact ⟨h.sum, h.updates, h.delivered⟩
  | work i =>
      obtain ⟨w, hw, hmove⟩ := step_moves hstep
      cases hmove with
      | completes pc chunks => exact h.completes hw chunks
      | goesOn pc' update final lost pc enter deliver =>
          exact h.setWorker hw rfl rfl rfl (fun d hd => .inl hd) _ update
      | passes pc final =>
          exact h.setWorker hw rfl rfl rfl (fun d hd => .inl hd) _ fun d hd => by rw [pc]; exact hd
      | @wins done now last pc hlast =>
          exact h.setWorker (f := { r with lastEmitMicros := now }) hw rfl rfl rfl
            (fun d hd => .inl hd) (.deliver done) fun d hd => by rw [pc]; exact hd
      | @delivers done pc =>
          refine h.setWorker (f := { r with delivered := r.delivered ++ [done] }) hw rfl rfl rfl
            (fun d hd => ?_) .idle fun d hd => by cases hd
          rw [List.mem_append, List.mem_singleton] at hd
          exact hd.imp_right fun heq => by rw [pc, heq]; rfl

/-! ## Delivered values never decrease -/

/-- No update waits while a larger one has been delivered, and none has been delivered after a larger
    one. -/
structure Sound (r : Reporting) : Prop where
  increasing : r.Increasing
  waiting : ∀ d ∈ r.waiting, ∀ x ∈ r.delivered, x ≤ d

theorem Sound.step {r r' : Reporting} {a : Act} (h : r.Sound) (hbounded : r.Bounded)
    (horderly : r.orderly a = true) (hstep : r.step a = some r') : r'.Sound := by
  cases a with
  | tick micros =>
      obtain rfl := Option.some.inj hstep
      exact ⟨h.increasing, h.waiting⟩
  | work i =>
      obtain ⟨w, hw, hmove⟩ := step_moves hstep
      cases hmove with
      | completes pc chunks =>
          refine ⟨h.increasing, fun d hd => ?_⟩
          exact h.waiting d ((waiting_of_set rfl hd).resolve_right fun heq => by cases heq)
      | goesOn pc' update final lost pc enter deliver =>
          refine ⟨h.increasing, fun d hd => ?_⟩
          exact h.waiting d ((waiting_of_set rfl hd).resolve_right (deliver d))
      | passes pc final =>
          -- nothing that has been delivered exceeds the total
          refine ⟨h.increasing, fun d hd x hx => ?_⟩
          rcases waiting_of_set rfl hd with hold | heq
          · exact h.waiting d hold x hx
          · cases heq
            have hx := UInt64.le_iff_toNat_le.1 (hbounded.delivered x hx)
            have hfinal :=
                UInt64.le_iff_toNat_le.1 (of_decide_eq_true (Bool.and_eq_true _ _ ▸ final).2)
            have hsum := hbounded.sum
            exact UInt64.le_iff_toNat_le.2 (by omega)
      | @wins done now last pc hlast =>
          refine ⟨h.increasing, fun d hd x hx => ?_⟩
          rcases waiting_of_set rfl hd with hold | heq
          · exact h.waiting d hold x hx
          · cases heq
            have hall : r.delivered.all (· ≤ done) = true := by
              simpa [orderly, hw, pc, hlast] using horderly
            exact of_decide_eq_true (List.all_eq_true.1 hall x hx)
      | @delivers done pc =>
          have hall : ∀ d ∈ r.waiting, done ≤ d := fun d hd => by
            have hall : r.waiting.all (done ≤ ·) = true := by
              simpa [orderly, hw, pc] using horderly
            exact of_decide_eq_true (List.all_eq_true.1 hall d hd)
          have hself : done ∈ r.waiting := mem_waiting.2 ⟨w, List.mem_of_getElem? hw, pc⟩
          refine ⟨?_, fun d hd x hx => ?_⟩
          · refine List.pairwise_append.2 ⟨h.increasing, List.pairwise_singleton _ _, ?_⟩
            intro x hx y hy
            rw [List.mem_singleton] at hy
            exact hy ▸ h.waiting done hself x hx
          · have hold : d ∈ r.waiting :=
              (waiting_of_set rfl hd).resolve_right fun heq => by cases heq
            rcases List.mem_append.1 hx with hx | hx
            · exact h.waiting d hold x hx
            · rw [List.mem_singleton] at hx
              exact hx ▸ hall d hold

/-- An update waits while a larger one has been delivered, or has been delivered after one. -/
def Doomed (r : Reporting) : Prop :=
  ¬ r.Increasing ∨ ∃ d ∈ r.waiting, ∃ x ∈ r.delivered, d < x

theorem Doomed.step {r r' : Reporting} {a : Act} (h : r.Doomed) (hstep : r.step a = some r') :
    r'.Doomed := by
  cases a with
  | tick micros =>
      obtain rfl := Option.some.inj hstep
      exact h
  | work i =>
      obtain ⟨w, hw, hmove⟩ := step_moves hstep
      rcases h with hnot | ⟨d, hd, x, hx, hlt⟩
      · left
        cases hmove with
        | delivers pc => exact fun hinc => hnot (List.pairwise_append.1 hinc).1
        | _ => exact hnot
      · by_cases hself : w.pc = .deliver d
        · -- it is delivered, after the larger one
          cases hmove with
          | @delivers done pc =>
              obtain rfl : done = d := by rw [pc] at hself; cases hself; rfl
              left
              intro hinc
              have hle := (List.pairwise_append.1 hinc).2.2 x hx done (List.mem_singleton_self _)
              exact absurd hlt (UInt64.not_lt.2 hle)
          | completes pc chunks => rw [pc] at hself; cases hself
          | goesOn pc' update final lost pc enter deliver => exact absurd hself (pc d)
          | passes pc final => rw [pc] at hself; cases hself
          | wins pc hlast => rw [pc] at hself; cases hself
        · right
          cases hmove with
          | delivers pc =>
              exact ⟨d, waiting_set rfl hw hd hself, x, List.mem_append_left _ hx, hlt⟩
          | _ => exact ⟨d, waiting_set rfl hw hd hself, x, hx, hlt⟩

/-- A step out of order dooms. -/
theorem doomed_of_disorder {r r' : Reporting} {a : Act} (horderly : r.orderly a = false)
    (hstep : r.step a = some r') : r'.Doomed := by
  cases a with
  | tick micros => cases horderly
  | work i =>
      obtain ⟨w, hw, hmove⟩ := step_moves hstep
      right
      cases hmove with
      | completes pc chunks => simp [orderly, hw, pc] at horderly
      | passes pc final => simp [orderly, hw, pc] at horderly
      | @wins done now last pc hlast =>
          obtain ⟨x, hx, hlt⟩ : ∃ x ∈ r.delivered, done < x := by
            simpa [orderly, hw, pc, hlast] using horderly
          exact ⟨done, waiting_set_self rfl hw rfl, x, hx, hlt⟩
      | @delivers done pc =>
          obtain ⟨d, hd, hlt⟩ : ∃ d ∈ r.waiting, d < done := by
            simpa [orderly, hw, pc] using horderly
          have hne : w.pc ≠ .deliver d := by
            rw [pc]
            intro heq
            cases heq
            exact absurd hlt (UInt64.lt_irrefl _)
          exact ⟨d, waiting_set rfl hw hd hne, done, List.mem_append_right _ (List.mem_singleton_self _),
            hlt⟩
      | goesOn pc' update final lost pc enter deliver =>
          simp only [orderly, hw, Option.map_some] at horderly
          split at horderly
          · next d now last heq => simp [lost d now last (Option.some.inj heq)] at horderly
          · next d heq => exact absurd (Option.some.inj heq) (pc d)
          · cases horderly

/-! ## The final update is delivered -/

/-- The update that completes the total has been delivered, or will pass. -/
def Passing (r : Reporting) : Prop :=
  r.total ∈ r.delivered ∨ ∃ w ∈ r.workers, w.pc = .enter r.total ∨ w.pc = .deliver r.total

/-- It stays so unless it is the worker's. -/
theorem Passing.set {r f : Reporting} {i : Nat} {w w' : Worker} (h : r.Passing)
    (hw : r.workers[i]? = some w) (hworkers : f.workers = r.workers) (htotal : f.total = r.total)
    (hdelivered : ∀ d ∈ r.delivered, d ∈ f.delivered)
    (hself : w.pc = .enter r.total ∨ w.pc = .deliver r.total →
      r.total ∈ f.delivered ∨ w'.pc = .deliver r.total) : (f.setWorker i w').Passing := by
  have htotal' : (f.setWorker i w').total = r.total := htotal
  have hlt : i < f.workers.length := hworkers ▸ (List.getElem?_eq_some_iff.1 hw).1
  rw [Passing, htotal']
  rcases h with hdone | ⟨v, hv, hpc⟩
  · exact .inl (hdelivered _ hdone)
  · obtain ⟨j, hj⟩ := List.mem_iff_getElem?.1 hv
    by_cases hij : i = j
    · subst hij
      obtain rfl := Option.some.inj (hw.symm.trans hj)
      exact (hself hpc).imp_right fun heq => ⟨w', List.mem_set hlt w', .inr heq⟩
    · refine .inr ⟨v, List.mem_iff_getElem?.2 ⟨j, ?_⟩, hpc⟩
      rw [setWorker, hworkers, List.getElem?_set_ne hij]
      exact hj

/-- Once the counter is at the total, the update that says so has been delivered, or will pass. -/
def Reached (r : Reporting) : Prop :=
  r.counter = r.total → r.Passing

theorem Reached.step {r r' : Reporting} {a : Act} (h : r.Reached) (hpos : 0 < r.total)
    (hstep : r.step a = some r') : r'.Reached := by
  have hfinal : r.isFinal r.total = true := by
    simp [isFinal, hpos]
  cases a with
  | tick micros =>
      obtain rfl := Option.some.inj hstep
      exact h
  | work i =>
      obtain ⟨w, hw, hmove⟩ := step_moves hstep
      have hlt : i < r.workers.length := (List.getElem?_eq_some_iff.1 hw).1
      intro hcounter
      cases hmove with
      | @completes len rest pc chunks =>
          have heq : r.counter + len = r.total := hcounter
          refine .inr ⟨_, List.mem_set hlt _, .inl ?_⟩
          rw [heq]
          rfl
      | goesOn pc' update final lost pc enter deliver =>
          refine (h hcounter).set hw rfl rfl (fun _ hd => hd) fun hself => ?_
          rcases hself with henter | hdeliver
          · rw [final _ henter] at hfinal
            cases hfinal
          · exact absurd hdeliver (pc _)
      | passes pc final =>
          refine (h hcounter).set hw rfl rfl (fun _ hd => hd) fun hself => ?_
          rw [pc] at hself
          rcases hself with heq | heq
          · cases heq
            exact .inr rfl
          · cases heq
      | @wins done now last pc hlast =>
          refine Passing.set (f := { r with lastEmitMicros := now }) (h hcounter) hw rfl rfl
            (fun _ hd => hd) fun hself => ?_
          rw [pc] at hself
          rcases hself with heq | heq
          · cases heq
          · cases heq
      | @delivers done pc =>
          refine Passing.set (f := { r with delivered := r.delivered ++ [done] }) (h hcounter) hw rfl
            rfl (fun _ hd => List.mem_append_left _ hd) fun hself => ?_
          rw [pc] at hself
          rcases hself with heq | heq
          · cases heq
          · cases heq
            exact .inl (List.mem_append_right _ (List.mem_singleton_self _))

/-! ## Runs -/

theorem step_total {r r' : Reporting} {a : Act} (hstep : r.step a = some r') :
    r'.total = r.total := by
  cases a with
  | tick micros =>
      obtain rfl := Option.some.inj hstep
      rfl
  | work i =>
      obtain ⟨w, hw, hmove⟩ := step_moves hstep
      cases hmove with
      | _ => rfl

/-- What holds in every run. -/
structure Sure (seed total : UInt64) (r : Reporting) : Prop where
  total_eq : r.total = total
  bounded : r.Bounded
  reached : seed < total → r.Reached

theorem Sure.step {seed total : UInt64} {r r' : Reporting} {a : Act} (h : r.Sure seed total)
    (hpos : 0 < total) (hstep : r.step a = some r') : r'.Sure seed total where
  total_eq := (step_total hstep).trans h.total_eq
  bounded := h.bounded.step hstep
  reached := fun hlt => (h.reached hlt).step (h.total_eq ▸ hpos) hstep

theorem sure_start {seed total interval : UInt64} {chunks : List (List UInt64)}
    (hsum : seed.toNat + (chunks.map fun l => (l.map UInt64.toNat).sum).sum = total.toNat) :
    (start seed total interval chunks).Sure seed total where
  total_eq := rfl
  bounded := by
    refine ⟨?_, fun w hw d hd => ?_, fun d hd => absurd hd List.not_mem_nil⟩
    · simp only [start, remaining, List.map_map]
      exact hsum
    · obtain ⟨l, -, rfl⟩ := List.mem_map.1 hw
      cases hd
  reached := fun hlt heq => by
    have hseed : seed = total := heq
    rw [hseed] at hlt
    exact absurd hlt (UInt64.lt_irrefl _)

/-- **The last update is the final one.** -/
def Ends (r : Reporting) : Prop :=
  ∃ d, r.delivered.getLast? = some d ∧ r.isFinal d = true

theorem remaining_eq_zero {r : Reporting} (h : r.Done) : r.remaining = 0 := by
  rw [remaining, List.sum_eq_zero_iff_forall_eq_nat]
  intro n hn
  obtain ⟨w, hw, rfl⟩ := List.mem_map.1 hn
  rw [(h w hw).1]
  rfl

theorem waiting_eq_nil {r : Reporting} (h : r.Done) : r.waiting = [] := by
  refine List.eq_nil_iff_forall_not_mem.2 fun d hd => ?_
  obtain ⟨w, hw, hpc⟩ := mem_waiting.1 hd
  rw [(h w hw).2] at hpc
  cases hpc

/-- When all is done the counter is at the total, and the update that says so has been delivered. -/
theorem Sure.total_mem {seed total : UInt64} {r : Reporting} (h : r.Sure seed total) (hdone : r.Done)
    (hlt : seed < total) : r.total ∈ r.delivered := by
  have hsum := h.bounded.sum
  rw [remaining_eq_zero hdone, Nat.add_zero] at hsum
  refine (h.reached hlt (UInt64.toNat_inj.1 hsum)).resolve_right ?_
  rintro ⟨w, hw, hpc⟩
  rw [(hdone w hw).2] at hpc
  rcases hpc with heq | heq
  · cases heq
  · cases heq

/-- In a nondecreasing list that has the total, the last is final. -/
theorem ends_of_increasing {r : Reporting} (hpos : 0 < r.total) (hinc : r.Increasing)
    (hmem : r.total ∈ r.delivered) : r.Ends := by
  have hne : r.delivered ≠ [] := List.ne_nil_of_mem hmem
  refine ⟨r.delivered.getLast hne, List.getLast?_eq_some_getLast hne, ?_⟩
  have hle : r.total ≤ r.delivered.getLast hne := by
    rw [Increasing, ← List.dropLast_concat_getLast hne, List.pairwise_append] at hinc
    rw [← List.dropLast_concat_getLast hne, List.mem_append, List.mem_singleton] at hmem
    rcases hmem with hmem | heq
    · exact hinc.2.2 _ hmem _ (List.mem_singleton_self _)
    · rw [← heq]
      exact UInt64.le_refl _
  simp [isFinal, hpos, hle]

/-- In a run to the end that does not doom an update every step is in order. -/
theorem meets_of_increasing {r r' : Reporting} {as : List Act} (h : r.runs as = some r')
    (hdone : r'.Done) (hinc : r'.Increasing) :
    Run.Meets step (fun r a => r.orderly a = true) r as := by
  have hfine : ¬ r'.Doomed := by
    rintro (hnot | ⟨d, hd, -⟩)
    · exact hnot hinc
    · rw [waiting_eq_nil hdone] at hd
      cases hd
  induction as generalizing r with
  | nil => trivial
  | cons a as ih =>
      obtain ⟨m, hm, hrest⟩ := Run.runs_cons_some h
      refine ⟨?_, fun m' hm' => ?_⟩
      · by_contra hnot
        have hdoomed := doomed_of_disorder (Bool.eq_false_iff.2 hnot) hm
        exact hfine (Run.invariant (fun _ _ _ hr hstep => hr.step hstep) hdoomed hrest)
      · obtain rfl := Option.some.inj (hm.symm.trans hm')
        exact ih hrest

end Reporting

/-- **Progress ends at the end and never goes back**, in a run in which the workers complete all their
    chunks, if and only if no update smaller than a delivered one wins its swap, and none is delivered
    while a smaller one that has been let through waits. -/
theorem progress_ends_at_the_end_iff {seed total interval : UInt64} {chunks : List (List UInt64)}
    {as : List Reporting.Act} {r : Reporting} (hpos : 0 < total)
    (hsum : seed.toNat + (chunks.map fun l => (l.map UInt64.toNat).sum).sum = total.toNat)
    (h : (Reporting.start seed total interval chunks).runs as = some r) (hdone : r.Done) :
    ((seed < total → r.Ends) ∧ r.Increasing) ↔
      Run.Meets Reporting.step (fun r a => r.orderly a = true)
        (Reporting.start seed total interval chunks) as := by
  refine ⟨fun hends => Reporting.meets_of_increasing h hdone hends.2, fun hmeets => ?_⟩
  have hinv : r.Sure seed total ∧ r.Sound :=
    Run.invariant_of (I := fun r => r.Sure seed total ∧ r.Sound)
      (fun _ _ _ hr horderly hstep =>
        ⟨hr.1.step hpos hstep, hr.2.step hr.1.bounded horderly hstep⟩)
      ⟨Reporting.sure_start hsum, ⟨.nil, fun _ _ _ hx => absurd hx List.not_mem_nil⟩⟩ hmeets h
  refine ⟨fun hlt => ?_, hinv.2.increasing⟩
  exact Reporting.ends_of_increasing (hinv.1.total_eq ▸ hpos) hinv.2.increasing
    (hinv.1.total_mem hdone hlt)

/-- Two workers complete a chunk of 50 bytes each. -/
def fiftyEach : Reporting :=
  .start 0 100 0 [[50], [50]]

/-- One after the other. -/
def reportInTurn : List Reporting.Act :=
  List.replicate 6 (.work 0) ++ .tick 100000 :: List.replicate 3 (.work 1)

theorem progress_ends_at_the_end_iff_inTurn :
    ∃ r : Reporting, fiftyEach.runs reportInTurn = some r ∧ r.delivered = [50, 100] ∧ r.Ends ∧
      r.Increasing := by
  have hany : (fiftyEach.runs reportInTurn).any
      (fun r => decide r.Done && r.delivered == [50, 100]) = true := by decide +kernel
  obtain ⟨r, hr, hboth⟩ := (Option.any_eq_true _ _).1 hany
  rw [Bool.and_eq_true, decide_eq_true_eq, beq_iff_eq] at hboth
  have hiff := progress_ends_at_the_end_iff (by decide) (by decide) hr hboth.1
  obtain ⟨hends, hincreasing⟩ := hiff.2 (by decide +kernel)
  exact ⟨r, hr, hboth.2, hends (by decide), hincreasing⟩

/-- The first worker's update has won its swap and waits while the second one completes the total. -/
def reportOvertaken : List Reporting.Act :=
  List.replicate 5 (.work 0) ++ List.replicate 3 (.work 1) ++ [.work 0]

theorem progress_ends_at_half :
    ∃ r, fiftyEach.runs reportOvertaken = some r ∧ r.Done ∧ r.delivered = [100, 50] ∧ ¬ r.Ends ∧
      ¬ r.Increasing := by
  have hany : (fiftyEach.runs reportOvertaken).any
      (fun r => decide r.Done && r.delivered == [100, 50] && r.total == 100) = true := by
    decide +kernel
  obtain ⟨r, hr, hall⟩ := (Option.any_eq_true _ _).1 hany
  rw [Bool.and_eq_true, Bool.and_eq_true, decide_eq_true_eq, beq_iff_eq, beq_iff_eq] at hall
  obtain ⟨⟨hdone, hdelivered⟩, htotal⟩ := hall
  refine ⟨r, hr, hdone, hdelivered, ?_, ?_⟩
  · rintro ⟨d, hd, hfinal⟩
    rw [hdelivered] at hd
    cases hd
    rw [Reporting.isFinal, htotal] at hfinal
    revert hfinal
    decide
  · rw [Reporting.Increasing, hdelivered]
    decide

end AetherLink
