import AetherLink.Proofs.Engine

set_option autoImplicit false

/-! # The slot of a failed start

A start claims the slot before the steps that can fail. Of these only the bind hands it back; over the
identity and over the bound address `bind_host` returns with `?`, and the flag stays set with nobody
there to clear it. -/

namespace AetherLink

/-- What the flag is while a start that has found it clear is here, alone; `none` where it does not
    get without leaking. -/
def CallPc.slot : CallPc → Option Bool
  | .parsing => some false
  | .claiming _ => some false
  | .generating => some true
  | .binding => some true
  | .naming => some true
  | .releasing => some true
  | .announcing _ => some true
  | .telling _ => some true
  | .spawning => some true
  | .storing _ => some true
  | .returned (.ok ()) => some true
  | .returned (.error .badFingerprint) => some false
  | .returned (.error (.engine doing)) => if doing = "binding port" then some false else none
  | _ => none

/-- The call minds a set flag: a start between its claim and its spawn, or a `cancel` that has dealt
    with the handle and is about to clear the flag. -/
def CallPc.minds (pc : CallPc) : Bool :=
  pc.holds || match pc with
    | .clearing => true
    | _ => false

namespace Engine

/-- The step fails a start over the identity, or over the address its listener is bound to. -/
def leaks (e : Engine) : Act → Bool
  | .call i false =>
      match e.calls[i]? with
      | some .generating => true
      | some .naming => true
      | _ => false
  | _ => false

/-- A call that no other thread gets in the way of, with the outcomes of its steps. -/
def alone (e : Engine) (call : Call) (oks : List Bool) : List Act :=
  .enter call :: oks.map (.call e.calls.length)

/-! ## A start alone -/

/-- Call `i` is a start, and the flag is what it is for a start alone. -/
def Solo (e : Engine) (i : Nat) : Prop :=
  ∃ pc, e.calls[i]? = some pc ∧ pc.slot = some e.running

theorem Solo.goto {e f : Engine} {i : Nat} {pc pc' : CallPc} (hf : f.calls = e.calls)
    (hpc : e.calls[i]? = some pc) (hslot : pc'.slot = some f.running) : (f.goto i pc').Solo i :=
  ⟨pc', getElem?_goto pc' (hf ▸ hpc), hslot⟩

/-- A step of a start alone leaves the flag right, or leaks the slot and ends the start. -/
theorem Solo.step {e e' : Engine} {i : Nat} {ok : Bool} (h : e.Solo i)
    (hstep : e.step (.call i ok) = some e') :
    (e.leaks (.call i ok) = false ∧ e'.Solo i) ∨
      (e.leaks (.call i ok) = true ∧ e'.running = true ∧
        ∃ doing, e'.calls[i]? = some (.returned (.error (.engine doing)))) := by
  obtain ⟨pc, hpc, hslot⟩ := h
  have hfine : (ok = false → pc ≠ .generating ∧ pc ≠ .naming) →
      e.leaks (.call i ok) = false := by
    intro hne
    cases ok with
    | true => rfl
    | false =>
        have := hne rfl
        cases pc <;> simp_all [leaks]
  cases step_moves hstep with
  | calls hat hmove =>
  obtain rfl := Option.some.inj (hpc.symm.trans hat)
  cases hmove with
  | noIdentity | noAddress =>
      exact .inr ⟨by simp [leaks, hpc], (Option.some.inj hslot).symm, _, getElem?_goto _ hpc⟩
  | busy host hset =>
      rw [hset] at hslot
      cases hslot
  | claims host hfree =>
      refine .inl ⟨hfine (by simp), Solo.goto (e := e) rfl hpc ?_⟩
      cases host <;> rfl
  | releases => exact .inl ⟨hfine (by simp), Solo.goto (e := e) rfl hpc rfl⟩
  | nothingToTake | takes t | aborts t | clears hset | nothingToClear hfree | storesCancelled
  | tellsCancelled => cases hslot
  | _ => exact .inl ⟨hfine (by simp), Solo.goto (e := e) rfl hpc hslot⟩

/-- A start alone does not find the slot taken, and an error it returns leaves the flag clear unless it
    leaks. -/
theorem Solo.runs {e e' : Engine} {i : Nat} {oks : List Bool} {err : EngineError} (h : e.Solo i)
    (hrun : e.runs (oks.map (.call i)) = some e')
    (herr : e'.calls[i]? = some (.returned (.error err))) :
    (e'.running = false ↔
        Run.Meets Engine.step (fun e a => e.leaks a = false) e (oks.map (.call i))) ∧
      err ≠ .busy := by
  induction oks generalizing e with
  | nil =>
      obtain rfl := Option.some.inj hrun
      obtain ⟨pc, hpc, hslot⟩ := h
      obtain rfl := Option.some.inj (hpc.symm.trans herr)
      cases err with
      | busy => cases hslot
      | badFingerprint => exact ⟨iff_of_true (Option.some.inj hslot).symm trivial, by simp⟩
      | engine doing =>
          rw [CallPc.slot] at hslot
          split at hslot
          · exact ⟨iff_of_true (Option.some.inj hslot).symm trivial, by simp⟩
          · cases hslot
  | cons ok oks ih =>
      obtain ⟨m, hm, hrest⟩ := Run.runs_cons_some hrun
      rcases h.step hm with ⟨hkeeps, hsolo⟩ | ⟨hleaks, hset, doing, hdoing⟩
      · obtain ⟨hiff, hbusy⟩ := ih hsolo hrest
        refine ⟨hiff.trans ⟨fun hmeets => ⟨hkeeps, fun m' hm' => ?_⟩, fun hmeets => hmeets.2 m hm⟩,
          hbusy⟩
        obtain rfl := Option.some.inj (hm.symm.trans hm')
        exact hmeets
      · -- the start has returned, so this was its last step
        cases oks with
        | cons ok' oks =>
            obtain ⟨m', hm', -⟩ := Run.runs_cons_some hrest
            simp only [Engine.step, hdoing, callStep] at hm'
            cases hm'
        | nil =>
            obtain rfl := Option.some.inj hrest
            obtain rfl : EngineError.engine doing = err := by
              have heq := hdoing.symm.trans herr
              simp only [Option.some.injEq, CallPc.returned.injEq, Except.error.injEq] at heq
              exact heq
            refine ⟨iff_of_false (by simp [hset]) fun hmeets => ?_, by simp⟩
            exact absurd (hleaks.symm.trans hmeets.1) (by simp)

/-- The flag is clear when a start comes in, alone. -/
theorem solo_enter {e : Engine} (hfree : e.running = false) {call : Call} (hcall : call ≠ .cancel) :
    ({ e with calls := e.calls ++ [entry call] } : Engine).Solo e.calls.length := by
  refine ⟨entry call, List.getElem?_concat_length, ?_⟩
  show (entry call).slot = some e.running
  rw [hfree]
  cases call with
  | cancel => exact absurd rfl hcall
  | _ => rfl

theorem error_alone {e e' : Engine} (hfree : e.running = false) {call : Call} (hcall : call ≠ .cancel)
    {oks : List Bool} (hrun : e.runs (e.alone call oks) = some e') {err : EngineError}
    (herr : e'.calls[e.calls.length]? = some (.returned (.error err))) :
    (e'.running = false ↔
      Run.Meets Engine.step (fun e a => e.leaks a = false) e (e.alone call oks)) ∧ err ≠ .busy := by
  obtain ⟨hiff, hbusy⟩ := (solo_enter hfree hcall).runs hrun herr
  refine ⟨hiff.trans ⟨fun hmeets => ⟨rfl, fun m hm => ?_⟩, fun hmeets => hmeets.2 _ rfl⟩, hbusy⟩
  obtain rfl := Option.some.inj hm
  exact hmeets

/-- While the flag is set a start is refused. -/
theorem exists_busy {e : Engine} (hset : e.running = true) :
    ∃ e', e.runs (e.alone .startHostReceiving [true]) = some e' ∧
      e'.calls[e.calls.length]? = some (.returned (.error .busy)) := by
  have hentry : (e.calls ++ [entry .startHostReceiving])[e.calls.length]?
      = some (.claiming true) := List.getElem?_concat_length
  refine ⟨({ e with calls := e.calls ++ [entry .startHostReceiving] } : Engine).goto e.calls.length
    (.returned (.error .busy)), ?_, getElem?_goto _ hentry⟩
  simp only [runs, alone, List.map_cons, List.map_nil, Run.runs_cons, step, Option.bind_some, hentry,
    callStep, hset, if_true, Run.runs_nil]

/-! ## Whose the flag is -/

/-- **A set flag is somebody's**: a call's that minds it, or a task's that holds the session. -/
def Accounted (e : Engine) : Prop :=
  e.running = true → (∃ pc ∈ e.calls, pc.minds = true) ∨ ∃ k ∈ e.tasks, k.owns = true

theorem accounted_of_free {e : Engine} (h : e.running = false) : e.Accounted := fun hset =>
  absurd (h.symm.trans hset) Bool.false_ne_true

theorem accounted_of_minds {e : Engine} {i : Nat} {pc : CallPc} (h : e.calls[i]? = some pc)
    (hminds : pc.minds = true) : e.Accounted := fun _ =>
  .inl ⟨pc, List.mem_of_getElem? h, hminds⟩

/-- A call goes on and minds the flag if it did. -/
theorem Accounted.goto {e f : Engine} {i : Nat} {pc pc' : CallPc} (h : e.Accounted)
    (hpc : e.calls[i]? = some pc) (hcalls : f.calls = e.calls) (htasks : f.tasks = e.tasks)
    (hrunning : f.running = e.running) (hminds : pc.minds = true → pc'.minds = true) :
    (f.goto i pc').Accounted := by
  intro hset
  rcases h (hrunning ▸ hset) with ⟨q, hq, hqm⟩ | hlive
  · obtain ⟨j, hj⟩ := List.mem_iff_getElem?.1 hq
    by_cases hij : j = i
    · subst hij
      obtain rfl := Option.some.inj (hpc.symm.trans hj)
      exact accounted_of_minds (getElem?_goto pc' (hcalls ▸ hpc)) (hminds hqm) hset
    · have hother : (f.goto i pc').calls[j]? = some q := by
        rw [getElem?_goto_ne pc' hij, hcalls]
        exact hj
      exact accounted_of_minds hother hqm hset
  · exact .inr (htasks ▸ hlive)

/-- A task goes on and holds the session if it did. -/
theorem Accounted.setTask {e f : Engine} {t : Nat} {k k' : TransferTask} (h : e.Accounted)
    (hk : e.tasks[t]? = some k) (hcalls : f.calls = e.calls) (htasks : f.tasks = e.tasks)
    (hrunning : f.running = e.running) (hlive : k.owns = true → k'.owns = true) :
    (f.setTask t k').Accounted := by
  intro hset
  rcases h (hrunning ▸ hset) with hcall | ⟨q, hq, hql⟩
  · exact .inl (hcalls ▸ hcall)
  · obtain ⟨j, hj⟩ := List.mem_iff_getElem?.1 hq
    right
    by_cases hjt : j = t
    · subst hjt
      obtain rfl := Option.some.inj (hk.symm.trans hj)
      exact ⟨k', List.mem_set (htasks ▸ (List.getElem?_eq_some_iff.1 hk).1) k', hlive hql⟩
    · refine ⟨q, List.mem_iff_getElem?.2 ⟨j, ?_⟩, hql⟩
      rw [Engine.setTask, htasks, List.getElem?_set_ne (Ne.symm hjt)]
      exact hj

theorem Accounted.call {e e' : Engine} (h : e.Accounted) {i : Nat} {ok : Bool} {pc : CallPc}
    (hpc : e.calls[i]? = some pc) (hkeeps : e.leaks (.call i ok) = false)
    (hmove : CallMove e i ok pc e') : e'.Accounted := by
  cases hmove with
  | noIdentity | noAddress => simp [leaks, hpc] at hkeeps
  | claims host hfree =>
      refine accounted_of_minds (getElem?_goto _ hpc) ?_
      cases host <;> rfl
  | releases | clears hset => exact accounted_of_free rfl
  | nothingToClear hfree => exact accounted_of_free hfree
  | spawns =>
      intro _
      exact .inr ⟨⟨.running, false⟩, List.mem_append_right _ (List.mem_singleton_self _), rfl⟩
  | aborts t =>
      -- whose task this was, the call that has aborted it now minds the flag
      exact accounted_of_minds (getElem?_goto _ (e.abort_calls t ▸ hpc)) rfl
  | stores host => exact h.goto (f := e.store (startState host)) hpc rfl rfl rfl fun _ => rfl
  | tells host => exact h.goto (f := e.tell (startState host)) hpc rfl rfl rfl fun _ => rfl
  | started t =>
      exact h.goto (f := { e with task := some t }) hpc rfl rfl rfl fun hno => by cases hno
  | takes t => exact h.goto (f := { e with task := none }) hpc rfl rfl rfl fun hno => by cases hno
  | storesCancelled =>
      exact h.goto (f := e.store .cancelled) hpc rfl rfl rfl fun hno => by cases hno
  | tellsCancelled =>
      exact h.goto (f := e.tell .cancelled) hpc rfl rfl rfl fun hno => by cases hno
  | _ => exact h.goto hpc rfl rfl rfl (by simp [CallPc.minds, CallPc.holds])

theorem Accounted.step {e e' : Engine} {a : Act} (h : e.Accounted) (hkeeps : e.leaks a = false)
    (hstep : e.step a = some e') : e'.Accounted := by
  cases step_moves hstep with
  | enters call =>
      exact fun hset => (h hset).imp_left fun ⟨pc, hpc, hminds⟩ =>
        ⟨pc, List.mem_append_left _ hpc, hminds⟩
  | calls hpc hmove => exact h.call hpc hkeeps hmove
  | finishes ok hk => exact h.setTask hk rfl rfl rfl id
  | drops hk => exact h.setTask hk rfl rfl rfl id
  | releases hk => exact accounted_of_free rfl
  | @announces t ok aborted hk => exact h.setTask (f := e.tell (endState ok)) hk rfl rfl rfl id
  | details hk => exact h.setTask hk rfl rfl rfl id

end Engine

/-- **When a failed start gives the slot back.** A start that finds the flag clear, meets no other
    thread and returns an error has cleared the flag again if and only if it was not refused over the
    identity or over the bound address; and if and only if it has, no start after it is refused as
    busy. In every run in which no start fails over those two, whatever the threads do, the flag is
    clear in every state in which no start or `cancel` minds it and no task holds the session. -/
theorem failed_start_gives_back_iff {e e' : Engine} (hfree : e.running = false) {call : Call}
    (hcall : call ≠ .cancel) {oks : List Bool} (hrun : e.runs (e.alone call oks) = some e')
    {err : EngineError} (herr : e'.calls[e.calls.length]? = some (.returned (.error err))) :
    (e'.running = false ↔
      Run.Meets Engine.step (fun e a => e.leaks a = false) e (e.alone call oks)) ∧
    (e'.running = false ↔ ∀ (next : Call) (oks' : List Bool) (e'' : Engine), next ≠ .cancel →
      e'.runs (e'.alone next oks') = some e'' →
      e''.calls[e'.calls.length]? ≠ some (.returned (.error .busy))) ∧
    ∀ (as : List Engine.Act) (u : Engine), Engine.init.runs as = some u →
      Run.Meets Engine.step (fun e a => e.leaks a = false) Engine.init as →
      (∀ pc ∈ u.calls, pc.minds = false) → (∀ k ∈ u.tasks, k.owns = false) → u.running = false := by
  refine ⟨(Engine.error_alone hfree hcall hrun herr).1,
    ⟨fun hclear next oks' e'' hnext hrun' hbusy => ?_, fun hnever => ?_⟩,
    fun as u hu hmeets hcalls htasks => ?_⟩
  · exact (Engine.error_alone hclear hnext hrun' hbusy).2 rfl
  · by_contra hset
    rw [Bool.not_eq_false] at hset
    obtain ⟨e'', hrun', hbusy⟩ := Engine.exists_busy hset
    exact hnever .startHostReceiving [true] e'' (by simp) hrun' hbusy
  · by_contra hset
    rw [Bool.not_eq_false] at hset
    have haccounted : u.Accounted :=
      Run.invariant_of (fun _ _ _ h hkeeps hstep => h.step hkeeps hstep)
        (Engine.accounted_of_free rfl) hmeets hu
    rcases haccounted hset with ⟨pc, hpc, hminds⟩ | ⟨k, hk, hlive⟩
    · exact Bool.false_ne_true ((hcalls pc hpc).symm.trans hminds)
    · exact Bool.false_ne_true ((htasks k hk).symm.trans hlive)

/-- The port cannot be bound: the start has failed, and the session is free. -/
theorem failed_start_gives_back_iff_failedBind :
    ∃ e', Engine.init.runs (Engine.init.alone .startHostReceiving [true, true, false, true]) = some e' ∧
      e'.calls[0]? = some (.returned (.error (.engine "binding port"))) ∧
      e'.running = false ∧
      Run.Meets Engine.step (fun e a => e.leaks a = false) Engine.init
        (Engine.init.alone .startHostReceiving [true, true, false, true]) ∧
      ∀ (next : Call) (oks' : List Bool) (e'' : Engine), next ≠ .cancel →
        e'.runs (e'.alone next oks') = some e'' →
        e''.calls[1]? ≠ some (.returned (.error .busy)) := by
  obtain ⟨hclear, hfree, -⟩ := @failed_start_gives_back_iff Engine.init _ rfl .startHostReceiving
    (by simp) [true, true, false, true] rfl _ rfl
  exact ⟨_, rfl, rfl, rfl, hclear.1 rfl, hfree.1 rfl⟩

/-- The identity cannot be generated: the start has failed, and the session is busy for good. -/
theorem failed_identity_keeps_slot :
    ∃ e' e'', Engine.init.runs (Engine.init.alone .startHostReceiving [true, false]) = some e' ∧
      e'.calls[0]? = some (.returned (.error (.engine "generating host identity"))) ∧
      e'.running = true ∧ e'.tasks = [] ∧
      e'.runs (e'.alone .startHostSending [true]) = some e'' ∧
      e''.calls[1]? = some (.returned (.error .busy)) :=
  ⟨_, _, rfl, rfl, rfl, rfl, rfl, rfl⟩

end AetherLink
