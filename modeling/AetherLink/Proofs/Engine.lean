import AetherLink.Ffi.Engine
import AetherLink.Lib.Tally
import Mathlib.Tactic.Common

set_option autoImplicit false

/-! # One transfer at a time

The flag admits one owner: a call between its claim and its spawn, or a task that holds the session.
As long as it is never cleared over an owner there is at most one (`Engine.Held`). A task that has
handed the session back is live until its reporter has told the outcome, so a transfer is alone
(`Engine.Alone`) only if no call claims the session while a task lingers there. Once either happens,
nothing keeps a second transfer from starting. -/

namespace AetherLink

/-- A live task owns the session or lingers. -/
theorem TransferTask.live_toNat (k : TransferTask) :
    k.live.toNat = k.owns.toNat + k.lingers.toNat := by
  obtain ⟨status, aborted⟩ := k
  cases status <;> cases aborted <;> rfl

theorem TransferTask.live_of_owns (k : TransferTask) (h : k.owns = true) : k.live = true := by
  have hlive := k.live_toNat
  have hle := Bool.toNat_le k.live
  rw [h, Bool.toNat_true] at hlive
  exact Bool.toNat_eq_one.1 (by omega)

theorem TransferTask.live_of_lingers (k : TransferTask) (h : k.lingers = true) : k.live = true := by
  have hlive := k.live_toNat
  have hle := Bool.toNat_le k.live
  rw [h, Bool.toNat_true] at hlive
  exact Bool.toNat_eq_one.1 (by omega)

namespace Engine

theorem owners_goto {e : Engine} {i : Nat} {pc : CallPc} (pc' : CallPc)
    (h : e.calls[i]? = some pc) :
    (e.goto i pc').owners + pc.holds.toNat = e.owners + pc'.holds.toNat := by
  have hcalls := List.countP_set_add h pc' CallPc.holds
  simp only [owners, goto]
  omega

theorem owners_setTask {e : Engine} {t : Nat} {k : TransferTask} (k' : TransferTask)
    (h : e.tasks[t]? = some k) :
    (e.setTask t k').owners + k.owns.toNat = e.owners + k'.owns.toNat := by
  have htasks := List.countP_set_add h k' TransferTask.owns
  simp only [owners, setTask]
  omega

theorem lingering_setTask {e : Engine} {t : Nat} {k : TransferTask} (k' : TransferTask)
    (h : e.tasks[t]? = some k) :
    (e.setTask t k').lingering + k.lingers.toNat = e.lingering + k'.lingers.toNat :=
  List.countP_set_add h k' TransferTask.lingers

/-- An abort makes nothing live. -/
theorem abort_le (e : Engine) (t : Nat) :
    (e.abort t).owners ≤ e.owners ∧ (e.abort t).lingering ≤ e.lingering := by
  rw [abort]
  split
  · exact ⟨Nat.le_refl _, Nat.le_refl _⟩
  · next k hk =>
      have howners := owners_setTask { k with aborted := true } hk
      have hlingering := lingering_setTask { k with aborted := true } hk
      have howns : TransferTask.owns { k with aborted := true } = false := by
        simp [TransferTask.owns]
      have hlingers : TransferTask.lingers { k with aborted := true } = false := by
        simp [TransferTask.lingers, TransferTask.live]
      rw [howns, Bool.toNat_false] at howners
      rw [hlingers, Bool.toNat_false] at hlingering
      omega

/-- **A call does not add to the owners** unless it claims the session. -/
theorem CallMove.le {e e' : Engine} {i : Nat} {ok : Bool} {pc : CallPc}
    (hpc : e.calls[i]? = some pc) (hclaim : ∀ host, pc = .claiming host → e.running = true)
    (hmove : CallMove e i ok pc e') : e'.owners ≤ e.owners ∧ e'.lingering ≤ e.lingering := by
  have hgoto : ∀ {f : Engine} (pc' : CallPc), f.calls = e.calls → f.tasks = e.tasks →
      pc'.holds.toNat ≤ pc.holds.toNat →
      (f.goto i pc').owners ≤ e.owners ∧ (f.goto i pc').lingering ≤ e.lingering := by
    intro f pc' hcalls htasks hle
    have hcount := owners_goto (e := f) pc' (hcalls ▸ hpc)
    have hsame : f.owners = e.owners := by rw [owners, owners, hcalls, htasks]
    refine ⟨by omega, ?_⟩
    rw [lingering, goto, htasks]
    exact Nat.le_refl _
  cases hmove with
  | claims host hfree =>
      rw [hclaim host rfl] at hfree
      cases hfree
  | spawns =>
      -- the task takes over from the call
      have hcount := owners_goto (e := { e with tasks := e.tasks ++ [⟨.running, false⟩] })
        (.storing e.tasks.length) hpc
      have hmore : ({ e with tasks := e.tasks ++ [⟨.running, false⟩] } : Engine).owners
          = e.owners + 1 := by
        simp [owners, List.countP_append, TransferTask.owns, TaskStatus.holds, Nat.add_assoc]
      have hheld : CallPc.spawning.holds.toNat = 1 := rfl
      have hdone : (CallPc.storing e.tasks.length).holds.toNat = 0 := rfl
      refine ⟨by omega, ?_⟩
      simp [lingering, goto, List.countP_append, TransferTask.lingers, TransferTask.live,
        TaskStatus.holds]
  | aborts t =>
      have habort := e.abort_le t
      have hcount := owners_goto .clearing ((e.abort_calls t).symm ▸ hpc)
      have hheld : (CallPc.aborting t).holds.toNat = 0 := rfl
      have hdone : CallPc.clearing.holds.toNat = 0 := rfl
      exact ⟨by omega, habort.2⟩
  | releases => exact hgoto _ rfl rfl (Nat.zero_le _)
  | _ => exact hgoto _ rfl rfl (by simp [CallPc.holds])

/-- A call that claims the session is its one more owner. -/
theorem owners_claim {e : Engine} {i : Nat} {host : Bool}
    (hpc : e.calls[i]? = some (.claiming host)) :
    (({ e with running := true } : Engine).goto i
      (if host then .generating else .announcing false)).owners = e.owners + 1 := by
  have hcount := owners_goto (e := { e with running := true })
    (if host then .generating else .announcing false) hpc
  have hsame : ({ e with running := true } : Engine).owners = e.owners := rfl
  have hold : (CallPc.claiming host).holds.toNat = 0 := rfl
  have hnew : CallPc.holds (if host then .generating else .announcing false) = true := by
    cases host <;> rfl
  rw [hnew, Bool.toNat_true] at hcount
  omega

/-! ## The flag -/

/-- **The flag covers its owner**, of whom there is at most one. -/
def Held (e : Engine) : Prop :=
  e.owners ≤ e.running.toNat

theorem held_init : init.Held := Nat.le_refl 0

theorem Held.call {e e' : Engine} (h : e.Held) {i : Nat} {ok : Bool} {pc : CallPc}
    (hpc : e.calls[i]? = some pc) (hclear : e.clearsOver (.call i ok) = false)
    (hmove : CallMove e i ok pc e') : e'.Held := by
  -- the flag stays as it is
  have hkeep : (∀ host, pc = .claiming host → e.running = true) → e'.running = e.running →
      e'.Held := by
    intro hclaim hflag
    have hle := (hmove.le hpc hclaim).1
    unfold Held at h ⊢
    rw [hflag]
    omega
  have hle := hmove.le hpc
  cases hmove with
  | busy host hset => exact hkeep (fun _ _ => hset) rfl
  | claims host hfree =>
      -- nobody owns the session, and now this call does
      have hone := owners_claim hpc
      unfold Held at h ⊢
      rw [hfree, Bool.toNat_false] at h
      have hflag : (({ e with running := true } : Engine).goto i
        (if host then .generating else .announcing false)).running.toNat = 1 := rfl
      omega
  | releases =>
      -- the call that clears the flag is the owner, and ends
      have hcount := owners_goto (e := { e with running := false })
        (.returned (.error (.engine "binding port"))) hpc
      have hsame : ({ e with running := false } : Engine).owners = e.owners := rfl
      have hheld : CallPc.releasing.holds.toNat = 1 := rfl
      have hdone : (CallPc.returned (.error (.engine "binding port"))).holds.toNat = 0 := rfl
      have hflag := Bool.toNat_le e.running
      unfold Held at h ⊢
      omega
  | clears hrunning =>
      have hnone : e.owners = 0 := by
        simpa [clearsOver, hpc] using hclear
      have hleft := (hle nofun).1
      unfold Held
      omega
  | aborts t => exact hkeep nofun (e.abort_running t)
  | _ => exact hkeep nofun rfl

/-- A task goes on without touching the flag, and owns no more than before. -/
theorem Held.setTask {e : Engine} (h : e.Held) {t : Nat} {k : TransferTask} (k' : TransferTask)
    (hk : e.tasks[t]? = some k) (hle : k'.owns.toNat ≤ k.owns.toNat) : (e.setTask t k').Held := by
  have hcount := owners_setTask k' hk
  have hflag : (e.setTask t k').running = e.running := rfl
  unfold Held at h ⊢
  rw [hflag]
  omega

/-- A call that comes in owns nothing. -/
theorem owners_enter (e : Engine) (call : Call) :
    ({ e with calls := e.calls ++ [entry call] } : Engine).owners = e.owners := by
  cases call <;> simp [owners, entry, CallPc.holds, List.countP_append]

theorem Held.step {e e' : Engine} {a : Act} (h : e.Held) (hclear : e.clearsOver a = false)
    (hstep : e.step a = some e') : e'.Held := by
  cases step_moves hstep with
  | enters call =>
      unfold Held at h ⊢
      rw [owners_enter]
      exact h
  | calls hpc hmove => exact h.call hpc hclear hmove
  | finishes ok hk => exact h.setTask _ hk (Nat.le_refl _)
  | drops hk => exact h.setTask _ hk (Nat.le_refl _)
  | @releases t ok aborted hk =>
      -- the owner, if there is one, is the task that reports
      have hown : e.owners ≤ (TransferTask.owns ⟨.reporting ok, aborted⟩).toNat := by
        simpa [clearsOver, hk] using hclear
      have hcount := owners_setTask (e := { e with running := false })
        ⟨.announcing ok, aborted⟩ hk
      have hsame : ({ e with running := false } : Engine).owners = e.owners := rfl
      have hdone : (TransferTask.owns ⟨.announcing ok, aborted⟩).toNat = 0 := rfl
      unfold Held
      omega
  | @announces t ok aborted hk =>
      have htold : (e.tell (endState ok)).Held := h
      exact htold.setTask ⟨.detailing ok, aborted⟩ hk (Nat.le_refl _)
  | details hk => exact h.setTask _ hk (Nat.le_refl _)

/-! ## The tasks -/

/-- **One owner or one lingering task.** -/
def Alone (e : Engine) : Prop :=
  e.owners + e.lingering ≤ 1

theorem Alone.oneLive {e : Engine} (h : e.Alone) : e.OneLive := by
  have hlive : e.tasks.countP TransferTask.live
      = e.tasks.countP TransferTask.owns + e.lingering := by
    rw [lingering, List.countP_eq_sum_map, List.countP_eq_sum_map, List.countP_eq_sum_map,
      ← List.sum_map_add]
    exact congrArg List.sum (List.map_congr_left fun k _ => k.live_toNat)
  have hle : e.tasks.countP TransferTask.live ≤ 1 := by
    unfold Alone owners at h
    omega
  rintro t u ⟨k, hk, hlive⟩ ⟨m, hm, hlive'⟩
  rcases Nat.lt_trichotomy t u with hlt | rfl | hlt
  · have := List.two_le_countP hk hm hlive hlive' hlt
    omega
  · rfl
  · have := List.two_le_countP hm hk hlive' hlive hlt
    omega

/-- A task goes on, and is no more live than before. -/
theorem Alone.setTask {e : Engine} (h : e.Alone) {t : Nat} {k : TransferTask} (k' : TransferTask)
    (hk : e.tasks[t]? = some k) (hle : k'.live.toNat ≤ k.live.toNat) : (e.setTask t k').Alone := by
  have howners := owners_setTask k' hk
  have hlingering := lingering_setTask k' hk
  have hold := k.live_toNat
  have hnew := k'.live_toNat
  unfold Alone at h ⊢
  omega

theorem Alone.step {e e' : Engine} {a : Act} (h : e.Alone) (hheld : e.Held)
    (hclaim : e.claimsOver a = false) (hstep : e.step a = some e') : e'.Alone := by
  cases step_moves hstep with
  | enters call =>
      unfold Alone at h ⊢
      rw [owners_enter]
      exact h
  | @calls i ok pc e' hpc hmove =>
      by_cases hfree : ∃ host, pc = .claiming host ∧ e.running = false
      swap
      · have hle := hmove.le hpc fun host hhost => by
          by_contra hne
          exact hfree ⟨host, hhost, Bool.eq_false_iff.2 hne⟩
        unfold Alone at h ⊢
        omega
      · obtain ⟨host, rfl, hfree⟩ := hfree
        have hnone : e.lingering = 0 := by
          simpa [claimsOver, hpc, hfree] using hclaim
        cases hmove with
        | busy host hset =>
            rw [hset] at hfree
            cases hfree
        | claims host hfree =>
            have hone := owners_claim hpc
            have hsame : (({ e with running := true } : Engine).goto i
              (if host then .generating else .announcing false)).lingering = e.lingering := rfl
            unfold Held at hheld
            rw [hfree, Bool.toNat_false] at hheld
            unfold Alone
            omega
  | finishes ok hk => exact h.setTask _ hk (Nat.le_refl _)
  | drops hk => exact h.setTask _ hk (Nat.le_refl _)
  | @releases t ok aborted hk =>
      have hfreed : ({ e with running := false } : Engine).Alone := h
      exact hfreed.setTask ⟨.announcing ok, aborted⟩ hk (Nat.le_refl _)
  | @announces t ok aborted hk =>
      have htold : (e.tell (endState ok)).Alone := h
      exact htold.setTask ⟨.detailing ok, aborted⟩ hk (Nat.le_refl _)
  | details hk => exact h.setTask _ hk (Nat.zero_le _)

/-- The flag is cleared over no owner, and claimed over no lingering task. -/
def Careful (e : Engine) (a : Act) : Prop :=
  e.clearsOver a = false ∧ e.claimsOver a = false

instance (e : Engine) (a : Act) : Decidable (e.Careful a) :=
  inferInstanceAs (Decidable (_ ∧ _))

theorem alone_of_runs {as : List Act} {e : Engine} (hmeets : Run.Meets step Careful init as)
    (h : init.runs as = some e) : e.Held ∧ e.Alone :=
  Run.invariant_of (I := fun e => e.Held ∧ e.Alone)
    (fun _ _ _ he hcareful hstep =>
      ⟨he.1.step hcareful.1 hstep, he.2.step he.1 hcareful.2 hstep⟩)
    ⟨held_init, Nat.zero_le 1⟩ hmeets h

/-! ## After a careless step -/

/-- Some way of going on from `e` spawns one task and changes no task and no other call. -/
def Spawns (e : Engine) (others : Nat → Prop) : Prop :=
  ∃ as e', e.runs as = some e' ∧ e'.tasks = e.tasks ++ [⟨.running, false⟩] ∧
    ∀ j pc, others j → e.calls[j]? = some pc → e'.calls[j]? = some pc

/-- A first step that changes no task and no other call. -/
theorem Spawns.of_step {e e₁ : Engine} {others : Nat → Prop} {a : Act} (hstep : e.step a = some e₁)
    (htasks : e₁.tasks = e.tasks)
    (hcalls : ∀ j pc, others j → e.calls[j]? = some pc → e₁.calls[j]? = some pc)
    (h : e₁.Spawns others) : e.Spawns others := by
  obtain ⟨as, e', hrun, htasks', hcalls'⟩ := h
  refine ⟨a :: as, e', ?_, by rw [htasks', htasks], fun j pc hj hpc => ?_⟩
  · rw [runs, Run.runs_cons, hstep]
    exact hrun
  · exact hcalls' j pc hj (hcalls j pc hj hpc)

theorem getElem?_goto {e : Engine} {i : Nat} {pc : CallPc} (pc' : CallPc)
    (h : e.calls[i]? = some pc) : (e.goto i pc').calls[i]? = some pc' :=
  List.getElem?_set_self (List.getElem?_eq_some_iff.1 h).1

theorem getElem?_goto_ne {e : Engine} {i j : Nat} (pc' : CallPc) (h : j ≠ i) :
    (e.goto i pc').calls[j]? = e.calls[j]? :=
  List.getElem?_set_ne h.symm

theorem spawns_spawning {e : Engine} {i : Nat} (h : e.calls[i]? = some .spawning) :
    e.Spawns (· ≠ i) := by
  refine ⟨[.call i true], ({ e with tasks := e.tasks ++ [⟨.running, false⟩] } : Engine).goto i
    (.storing e.tasks.length), ?_, rfl, fun j pc hj hpc => ?_⟩
  · rw [runs, Run.runs_cons, step, h]
    rfl
  · rw [getElem?_goto_ne _ hj]
    exact hpc

/-- A call that goes on to `pc'` spawns if it does from there. -/
theorem spawns_goto {e f : Engine} {i : Nat} {pc : CallPc} (pc' : CallPc)
    (h : e.calls[i]? = some pc)
    (hstep : e.callStep i true pc = some (f.goto i pc')) (htasks : f.tasks = e.tasks)
    (hcalls : f.calls = e.calls) (hnext : (f.goto i pc').Spawns (· ≠ i)) : e.Spawns (· ≠ i) := by
  have hact : e.step (.call i true) = some (f.goto i pc') := by
    rw [step, h]
    exact hstep
  refine .of_step hact htasks (fun j pc hj hpc => ?_) hnext
  rw [getElem?_goto_ne _ hj, hcalls]
  exact hpc

theorem spawns_telling {e : Engine} {i : Nat} {host : Bool}
    (h : e.calls[i]? = some (.telling host)) : e.Spawns (· ≠ i) :=
  spawns_goto (f := e.tell (startState host)) _ h rfl rfl rfl (spawns_spawning (getElem?_goto _ h))

theorem spawns_announcing {e : Engine} {i : Nat} {host : Bool}
    (h : e.calls[i]? = some (.announcing host)) : e.Spawns (· ≠ i) :=
  spawns_goto (f := e.store (startState host)) _ h rfl rfl rfl (spawns_telling (getElem?_goto _ h))

theorem spawns_naming {e : Engine} {i : Nat} (h : e.calls[i]? = some .naming) :
    e.Spawns (· ≠ i) :=
  spawns_goto _ h rfl rfl rfl (spawns_announcing (getElem?_goto _ h))

theorem spawns_binding {e : Engine} {i : Nat} (h : e.calls[i]? = some .binding) :
    e.Spawns (· ≠ i) :=
  spawns_goto _ h rfl rfl rfl (spawns_naming (getElem?_goto _ h))

theorem spawns_generating {e : Engine} {i : Nat} (h : e.calls[i]? = some .generating) :
    e.Spawns (· ≠ i) :=
  spawns_goto _ h rfl rfl rfl (spawns_binding (getElem?_goto _ h))

/-- A call that has claimed the session spawns its task, unless its bind has failed. -/
theorem spawns_of_holds {e : Engine} {i : Nat} {pc : CallPc} (h : e.calls[i]? = some pc)
    (hholds : pc.holds = true) (hbind : pc ≠ .releasing) : e.Spawns (· ≠ i) := by
  cases pc with
  | generating => exact spawns_generating h
  | binding => exact spawns_binding h
  | naming => exact spawns_naming h
  | releasing => exact absurd rfl hbind
  | announcing host => exact spawns_announcing h
  | telling host => exact spawns_telling h
  | spawning => exact spawns_spawning h
  | _ => cases hholds

theorem Spawns.mono {e : Engine} {others others' : Nat → Prop} (h : e.Spawns others)
    (hle : ∀ j, others' j → others j) : e.Spawns others' := by
  obtain ⟨as, e', hrun, htasks, hcalls⟩ := h
  exact ⟨as, e', hrun, htasks, fun j pc hj hpc => hcalls j pc (hle j hj) hpc⟩

/-- While the flag is clear, a new call spawns. -/
theorem spawns_of_free {e : Engine} (hfree : e.running = false) :
    e.Spawns (· < e.calls.length) := by
  have hlast : (e.calls ++ [CallPc.parsing])[e.calls.length]? = some .parsing := by simp
  have hclaiming : ((e.calls ++ [CallPc.parsing]).set e.calls.length
      (.claiming false))[e.calls.length]? = some (.claiming false) :=
    List.getElem?_set_self (by simp)
  -- the new call parses its argument, claims the session, and is about to `set_state`
  have hclaim : Spawns { e with calls := e.calls ++ [.parsing] } (· ≠ e.calls.length) := by
    refine spawns_goto (.claiming false) hlast rfl rfl rfl ?_
    refine spawns_goto (f := { e with
        running := true
        calls := (e.calls ++ [CallPc.parsing]).set e.calls.length (.claiming false) })
      (.announcing false) (getElem?_goto _ hlast) ?_ rfl rfl ?_
    · simp only [callStep, goto, hfree]
      rfl
    · exact spawns_announcing (getElem?_goto _ hclaiming)
  refine .of_step (a := .enter .startClientSending) rfl rfl (fun j pc hj hpc => ?_)
    (hclaim.mono fun j hj => Nat.ne_of_lt hj)
  rw [List.getElem?_append_left hj]
  exact hpc

/-- Going on from `e`, two tasks can be live and not aborted. -/
def Breaks (e : Engine) : Prop :=
  ∃ as e', e.runs as = some e' ∧ ¬ e'.OneLive

theorem Spawns.breaks {e : Engine} {others : Nat → Prop} (h : e.Spawns others) {t : Nat}
    (ht : e.Live t) : e.Breaks := by
  obtain ⟨as, e', hrun, htasks, -⟩ := h
  obtain ⟨k, hk, hlive⟩ := ht
  have hlt : t < e.tasks.length := (List.getElem?_eq_some_iff.1 hk).1
  have hold : e'.Live t := ⟨k, by rw [htasks, List.getElem?_append_left hlt, hk], hlive⟩
  have hnew : e'.Live e.tasks.length := ⟨⟨.running, false⟩, by rw [htasks]; simp, rfl⟩
  exact ⟨as, e', hrun, fun hone => absurd (hone t e.tasks.length hold hnew) (Nat.ne_of_lt hlt)⟩

theorem Breaks.of_runs {e e' : Engine} {as : List Act} (h : e.runs as = some e')
    (hb : e'.Breaks) : e.Breaks := by
  obtain ⟨bs, e'', hrun, hnot⟩ := hb
  refine ⟨as ++ bs, e'', ?_, hnot⟩
  rw [runs, Run.runs_append]
  rw [runs] at h
  rw [h]
  exact hrun

/-- **A clear flag over an owner lets a second transfer in.** -/
theorem breaks_of_unheld {e : Engine} (hfree : e.running = false) (hown : 0 < e.owners) :
    e.Breaks := by
  by_cases howns : 0 < e.tasks.countP TransferTask.owns
  · obtain ⟨k, hmem, hk⟩ := List.countP_pos_iff.1 howns
    obtain ⟨t, ht⟩ := List.mem_iff_getElem?.1 hmem
    exact (spawns_of_free hfree).breaks ⟨k, ht, k.live_of_owns hk⟩
  · have hcalls : 0 < e.calls.countP CallPc.holds := by
      unfold owners at hown
      omega
    obtain ⟨pc, hmem, hpc⟩ := List.countP_pos_iff.1 hcalls
    obtain ⟨i, hi⟩ := List.mem_iff_getElem?.1 hmem
    have hlt : i < e.calls.length := (List.getElem?_eq_some_iff.1 hi).1
    -- another call spawns first
    obtain ⟨as, e₁, hrun, htasks, hothers⟩ := spawns_of_free hfree
    have hi₁ := hothers i pc hlt hi
    have hnew : e₁.Live e.tasks.length := ⟨⟨.running, false⟩, by rw [htasks]; simp, rfl⟩
    by_cases hbind : pc = .releasing
    · -- the failed bind clears the flag once more, and a third call spawns
      subst hbind
      have hstep : e₁.runs [.call i true] = some (({ e₁ with running := false } : Engine).goto i
          (.returned (.error (.engine "binding port")))) := by
        rw [runs, Run.runs_cons, step, hi₁]
        rfl
      exact .of_runs hrun (.of_runs hstep ((spawns_of_free rfl).breaks hnew))
    · exact .of_runs hrun ((spawns_of_holds hi₁ hpc hbind).breaks hnew)

/-- A step that clears the flag over an owner leaves it clear over one. -/
theorem unheld_of_clearsOver {e e' : Engine} {a : Act} (hclear : e.clearsOver a = true)
    (h : e.Held) (hstep : e.step a = some e') : e'.running = false ∧ 0 < e'.owners := by
  cases a with
  | call i ok =>
      simp only [clearsOver] at hclear
      split at hclear
      · next hpc =>
          have hown : 0 < e.owners := by simpa using hclear
          have hrunning : e.running = true := by
            cases hflag : e.running with
            | true => rfl
            | false =>
                unfold Held at h
                rw [hflag, Bool.toNat_false] at h
                omega
          rw [step, hpc] at hstep
          simp only [callStep, hrunning, if_true, Option.some.injEq] at hstep
          subst hstep
          have hcount := owners_goto (e := { e with running := false }) .cancelled hpc
          have hsame : ({ e with running := false } : Engine).owners = e.owners := rfl
          have hold : CallPc.clearing.holds.toNat = 0 := rfl
          exact ⟨rfl, by omega⟩
      · cases hclear
  | release t =>
      simp only [clearsOver] at hclear
      split at hclear
      · next k hk =>
          have hown : k.owns.toNat < e.owners := by simpa using hclear
          simp only [step] at hstep
          split at hstep
          · next ok aborted hk' =>
              obtain rfl := Option.some.inj (hk.symm.trans hk')
              obtain rfl := Option.some.inj hstep
              have hcount := owners_setTask (e := { e with running := false })
                ⟨.announcing ok, aborted⟩ hk
              have hsame : ({ e with running := false } : Engine).owners = e.owners := rfl
              exact ⟨rfl, by omega⟩
          · cases hstep
      · cases hclear
  | _ => cases hclear

/-- **A session claimed over a lingering task lets a second transfer in.** -/
theorem breaks_of_claimsOver {e e' : Engine} {a : Act} (hclaim : e.claimsOver a = true)
    (hstep : e.step a = some e') : e'.Breaks := by
  cases a with
  | call i ok =>
      simp only [claimsOver] at hclaim
      split at hclaim
      · next host hpc =>
          simp only [Bool.and_eq_true, Bool.not_eq_true', decide_eq_true_eq] at hclaim
          obtain ⟨hfree, hlingering⟩ := hclaim
          obtain ⟨k, hmem, hk⟩ := List.countP_pos_iff.1 hlingering
          obtain ⟨t, ht⟩ := List.mem_iff_getElem?.1 hmem
          rw [step, hpc] at hstep
          simp only [callStep, hfree, Bool.false_eq_true, if_false, Option.some.injEq] at hstep
          subst hstep
          have hlive : (({ e with running := true } : Engine).goto i
              (if host then .generating else .announcing false)).Live t :=
            ⟨k, ht, k.live_of_lingers hk⟩
          have hcall := getElem?_goto (e := { e with running := true })
            (if host then .generating else .announcing false) hpc
          exact (spawns_of_holds hcall (by cases host <;> rfl) (by cases host <;> simp)).breaks hlive
      · cases hclaim
  | _ => cases hclaim

end Engine

/-- **One transfer at a time**, in every run whose steps are careful: the flag is never cleared over
    a call between its claim and its spawn or over a task that holds the session, and no call claims
    the session while a task that is not aborted still tells its outcome. The first careless step lets
    a second transfer in. -/
theorem one_transfer_at_a_time {as : List Engine.Act} {e : Engine}
    (hmeets : Run.Meets Engine.step Engine.Careful Engine.init as)
    (h : Engine.init.runs as = some e) :
    e.OneLive ∧ ∀ a e', e.step a = some e' → ¬ e.Careful a →
      ∃ bs e'', e'.runs bs = some e'' ∧ ¬ e''.OneLive := by
  obtain ⟨hheld, halone⟩ := Engine.alone_of_runs hmeets h
  refine ⟨halone.oneLive, fun a e' hstep hcareless => ?_⟩
  by_cases hclear : e.clearsOver a = true
  · obtain ⟨hfree, hown⟩ := Engine.unheld_of_clearsOver hclear hheld hstep
    exact Engine.breaks_of_unheld hfree hown
  · refine Engine.breaks_of_claimsOver ?_ hstep
    by_contra hclaim
    exact hcareless ⟨Bool.eq_false_iff.2 hclear, Bool.eq_false_iff.2 hclaim⟩

/-- A start that goes through. -/
def startedOnce : List Engine.Act :=
  .enter .startClientSending :: List.replicate 6 (.call 0 true)

/-- The transfer ends and its reporter tells the outcome; then another start goes through. -/
def startedAgain : List Engine.Act :=
  startedOnce ++ [.finish 0 true, .release 0, .announce 0, .detail 0] ++
    .enter .startHostReceiving :: List.replicate 8 (.call 1 true)

/-- Tasks `t` and `u` are live. -/
def Engine.bothLive (t u : Nat) (e : Engine) : Bool :=
  e.tasks[t]?.any TransferTask.live && e.tasks[u]?.any TransferTask.live

theorem Engine.live_of_bothLive {t u : Nat} {e : Engine} (h : e.bothLive t u = true) :
    e.Live t ∧ e.Live u := by
  obtain ⟨ht, hu⟩ := (Bool.and_eq_true _ _).mp h
  exact ⟨(Option.any_eq_true _ _).1 ht, (Option.any_eq_true _ _).1 hu⟩

theorem one_transfer_at_a_time_startedAgain :
    ∃ e : Engine, e.tasks.length = 2 ∧ e.Live 1 ∧ e.OneLive ∧
      ∀ a e', e.step a = some e' → ¬ e.Careful a → ∃ bs e'', e'.runs bs = some e'' ∧ ¬ e''.OneLive := by
  have hany : (Engine.init.runs startedAgain).any
      (fun e => e.tasks.length = 2 ∧ e.bothLive 1 1 = true) = true := by
    decide +kernel
  obtain ⟨e, he, hboth⟩ := (Option.any_eq_true _ _).1 hany
  obtain ⟨hlength, hboth⟩ := of_decide_eq_true hboth
  exact ⟨e, hlength, (Engine.live_of_bothLive hboth).1, one_transfer_at_a_time (by decide +kernel) he⟩

theorem Engine.not_oneLive_of_runs {as : List Engine.Act}
    (h : (Engine.init.runs as).any (Engine.bothLive 0 1) = true) :
    ∃ e, Engine.init.runs as = some e ∧ ¬ e.OneLive := by
  obtain ⟨e, he, hboth⟩ := (Option.any_eq_true _ _).1 h
  obtain ⟨hfirst, hsecond⟩ := Engine.live_of_bothLive hboth
  exact ⟨e, he, fun hone => absurd (hone 0 1 hfirst hsecond) Nat.zero_ne_one⟩

/-- One thread has spawned its task when another one cancels, before the handle is stored; then a
    third one starts. -/
def cancelledInStart : List Engine.Act :=
  .enter .startClientSending :: List.replicate 5 (.call 0 true) ++
    .enter .cancel :: List.replicate 4 (.call 1 true) ++
    .enter .startClientSending :: List.replicate 6 (.call 2 true)

/-- Nobody cancels: the transfer has ended and its reporter has cleared the flag, but not yet told the
    observer, when another start goes through. -/
def startedWhileTelling : List Engine.Act :=
  startedOnce ++ [.finish 0 true, .release 0] ++
    .enter .startClientSending :: List.replicate 6 (.call 1 true)

theorem two_transfers_at_a_time :
    (∃ e, Engine.init.runs cancelledInStart = some e ∧ ¬ e.OneLive) ∧
      ∃ e, Engine.init.runs startedWhileTelling = some e ∧ ¬ e.OneLive :=
  ⟨Engine.not_oneLive_of_runs (by decide +kernel), Engine.not_oneLive_of_runs (by decide +kernel)⟩

end AetherLink
