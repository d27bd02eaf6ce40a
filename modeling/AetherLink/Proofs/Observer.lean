import AetherLink.Ffi.Observer
import AetherLink.Proofs.Engine

set_option autoImplicit false

/-! # What the observer is told -/

namespace AetherLink

namespace Engine

/-! ## Steps that change neither the state nor what has been told -/

/-- A call that sets no state goes on and changes the flag, the handle or the tasks at most. -/
theorem CallMove.silent {e e' : Engine} {i : Nat} {ok : Bool} {pc : CallPc}
    (h : CallMove e i ok pc e') (hpc : ∀ state, pc.settles state = false) :
    ∃ pc', e'.calls = e.calls.set i pc' ∧ e'.state = e.state ∧ e'.observed = e.observed := by
  cases h with
  | stores host | storesCancelled => exact absurd (hpc .idle) Bool.true_eq_false.mp
  | tells host => exact absurd (hpc (startState host)) (by simp [CallPc.settles, CallPc.tells])
  | tellsCancelled => exact absurd (hpc .cancelled) (by simp [CallPc.settles, CallPc.tells])
  | aborts t => exact ⟨.clearing, by simp [goto], by simp [goto], by simp [goto]⟩
  | _ => exact ⟨_, rfl, rfl, rfl⟩

/-! ## The state told and the state stored -/

/-- The observer has been told the stored state, or is about to be. -/
def Settled (e : Engine) : Prop :=
  e.lastTold = e.state ∨ e.settling = true

theorem lastTold_snoc {e : Engine} {observed : List SessionState} {state : SessionState}
    (h : e.observed = observed ++ [state]) : e.lastTold = state := by
  rw [lastTold, h, List.getLast?_concat]
  rfl

theorem settling_iff {e : Engine} :
    e.settling = true ↔ ∃ pc ∈ e.calls, pc.settles e.state = true :=
  List.any_eq_true

/-- A step of a task leaves the calls alone; one of a call that has nothing to tell keeps what the
    others are about to tell. -/
theorem settling_set {e : Engine} {calls : List CallPc} {i : Nat} {pc pc' : CallPc}
    (hcalls : calls = e.calls.set i pc') (hpc : e.calls[i]? = some pc)
    (hidle : pc.settles e.state = false) (h : e.settling = true) :
    calls.any (CallPc.settles e.state) = true := by
  obtain ⟨other, hmem, hsettles⟩ := settling_iff.1 h
  obtain ⟨j, hj⟩ := List.mem_iff_getElem?.1 hmem
  have hne : i ≠ j := by
    rintro rfl
    obtain rfl := Option.some.inj (hpc.symm.trans hj)
    rw [hidle] at hsettles
    cases hsettles
  refine List.any_eq_true.2 ⟨other, List.mem_iff_getElem?.2 ⟨j, ?_⟩, hsettles⟩
  rw [hcalls, List.getElem?_set_ne hne]
  exact hj

/-- Whoever tells the observer leaves things settled, unless it misleads. -/
theorem settled_of_told {e e' : Engine} {a : Act} {state : SessionState}
    (htold : e.told a = some state) (hmisleads : e.misleads a = false)
    (hobserved : e'.observed = e.observed ++ [state]) (hstate : e'.state = e.state)
    (hsettling : state ≠ e.state → e.settling = true → e'.settling = true) : e'.Settled := by
  by_cases heq : state = e.state
  · left
    rw [lastTold_snoc hobserved, heq, hstate]
  · right
    refine hsettling heq ?_
    simpa [misleads, htold, heq] using hmisleads

theorem Settled.call {e e' : Engine} (h : e.Settled) {i : Nat} {ok : Bool} {pc : CallPc}
    (hpc : e.calls[i]? = some pc) (hmisleads : e.misleads (.call i ok) = false)
    (hmove : CallMove e i ok pc e') : e'.Settled := by
  have htells : e.told (.call i ok) = pc.tells := by rw [told, hpc, Option.bind_some]
  have hlt : i < e.calls.length := (List.getElem?_eq_some_iff.1 hpc).1
  by_cases hsilent : ∀ state, pc.settles state = false
  · -- whoever settles is another call
    obtain ⟨pc', hcalls, hstate, hobserved⟩ := hmove.silent hsilent
    rcases h with htold | hsettling
    · left
      rw [lastTold, hobserved, hstate]
      exact htold
    · right
      rw [settling, hstate]
      exact settling_set hcalls hpc (hsilent _) hsettling
  · cases hmove with
    | stores host | storesCancelled =>
        exact .inr (settling_iff.2
            ⟨_, List.mem_set hlt _, by simp [CallPc.settles, CallPc.tells]; rfl⟩)
    | tells host =>
        refine settled_of_told htells hmisleads rfl rfl fun hne hsettling => ?_
        have hidle : CallPc.settles e.state (.telling host) = false := by
          simpa [CallPc.settles, CallPc.tells] using hne
        exact settling_set (e := e) rfl hpc hidle hsettling
    | tellsCancelled =>
        refine settled_of_told htells hmisleads rfl rfl fun hne hsettling => ?_
        have hidle : CallPc.settles e.state .tellingCancelled = false := by
          simpa [CallPc.settles, CallPc.tells] using hne
        exact settling_set (e := e) rfl hpc hidle hsettling
    | _ => exact absurd (fun _ => rfl) hsilent

theorem Settled.step {e e' : Engine} {a : Act} (h : e.Settled) (hmisleads : e.misleads a = false)
    (hstep : e.step a = some e') : e'.Settled := by
  cases step_moves hstep with
  | enters call =>
      rcases h with htold | hsettling
      · exact .inl htold
      · obtain ⟨pc, hmem, hsettles⟩ := settling_iff.1 hsettling
        exact .inr (settling_iff.2 ⟨pc, List.mem_append_left _ hmem, hsettles⟩)
  | calls hpc hmove => exact h.call hpc hmisleads hmove
  | @announces t ok aborted hk =>
      have htells : e.told (.announce t) = some (endState ok) := by
        rw [told, hk]
        rfl
      exact settled_of_told htells hmisleads rfl rfl fun _ hsettling => hsettling
  | _ =>
      -- the other steps of a task are not the observer's business
      exact h

theorem settled_of_runs {as : List Act} {e : Engine}
    (hmeets : Run.Meets step (fun e a => e.misleads a = false) init as)
    (h : init.runs as = some e) : e.Settled :=
  Run.invariant_of (fun _ _ _ he hmisleads hstep => he.step hmisleads hstep) (.inl rfl) hmeets h

/-- Nobody is about to set anything once every call has returned. -/
theorem Settled.lastTold_eq {e : Engine} (h : e.Settled) (hquiet : e.quiet = true) :
    e.lastTold = e.state := by
  refine h.resolve_right fun hsettling => ?_
  obtain ⟨pc, hmem, hsettles⟩ := settling_iff.1 hsettling
  have hreturned := List.all_eq_true.1 hquiet pc hmem
  cases pc with
  | returned result => simp [CallPc.settles, CallPc.tells] at hsettles
  | _ => cases hreturned

/-- Telling `state`, and nothing else, in a step that misleads. -/
theorem unsettled_of_told {e e' : Engine} {a : Act} {state : SessionState}
    (htold : e.told a = some state) (hmisleads : e.misleads a = true)
    (hobserved : e'.observed = e.observed ++ [state]) (hstate : e'.state = e.state)
    (hcalls : ∀ pc ∈ e'.calls, pc ∈ e.calls ∨ pc.settles e.state = false) :
    e'.state ≠ e'.lastTold ∧ e'.settling = false := by
  have hne : state ≠ e.state ∧ e.settling = false := by simpa [misleads, htold] using hmisleads
  refine ⟨?_, Bool.eq_false_iff.2 fun hsettling => ?_⟩
  · rw [lastTold_snoc hobserved, hstate]
    exact hne.1.symm
  · obtain ⟨pc, hmem, hsettles⟩ := settling_iff.1 hsettling
    rw [hstate] at hsettles
    rcases hcalls pc hmem with hold | hidle
    · rw [settling_iff.2 ⟨pc, hold, hsettles⟩] at hne
      cases hne.2
    · rw [hidle] at hsettles
      cases hsettles

/-- A step that misleads leaves the observer with another state than the stored one, and nobody
    about to set that right. -/
theorem unsettled_of_misleads {e e' : Engine} {a : Act} (hmisleads : e.misleads a = true)
    (hstep : e.step a = some e') : e'.state ≠ e'.lastTold ∧ e'.settling = false := by
  cases step_moves hstep with
  | @calls i ok pc _ hpc hmove =>
      have htells : e.told (.call i ok) = pc.tells := by rw [told, hpc, Option.bind_some]
      cases hmove with
      | tells host =>
          refine unsettled_of_told htells hmisleads rfl rfl fun pc hmem => ?_
          exact (List.mem_or_eq_of_mem_set hmem).imp_right fun heq => by rw [heq]; rfl
      | tellsCancelled =>
          refine unsettled_of_told htells hmisleads rfl rfl fun pc hmem => ?_
          exact (List.mem_or_eq_of_mem_set hmem).imp_right fun heq => by rw [heq]; rfl
      | _ => simp [misleads, htells, CallPc.tells] at hmisleads
  | @announces t ok aborted hk =>
      have htells : e.told (.announce t) = some (endState ok) := by
        rw [told, hk]
        rfl
      exact unsettled_of_told htells hmisleads rfl rfl fun pc hmem => .inl hmem
  | _ => cases hmisleads

end Engine

/-- **The state query agrees with the notifications** whenever no call is in progress, in every run
    in which the observer is never told another state than the stored one unless some call is about
    to set one, or to tell the stored one. After the first step that does so they do not agree. -/
theorem state_query_agrees {as : List Engine.Act} {e : Engine}
    (hmeets : Run.Meets Engine.step (fun e a => e.misleads a = false) Engine.init as)
    (h : Engine.init.runs as = some e) :
    (e.quiet = true → e.state = e.lastTold) ∧
      ∀ a e', e.step a = some e' → e.misleads a = true →
        e'.state ≠ e'.lastTold ∧ e'.settling = false :=
  ⟨fun hquiet => ((Engine.settled_of_runs hmeets h).lastTold_eq hquiet).symm,
    fun _ _ hstep hmisleads => Engine.unsettled_of_misleads hmisleads hstep⟩

theorem state_query_agrees_startedOnce :
    ∃ e : Engine, e.quiet = true ∧ e.state = e.lastTold ∧ e.state = .transferring := by
  have hany : (Engine.init.runs startedOnce).any
      (fun e => e.quiet && e.state == .transferring) = true := by decide +kernel
  obtain ⟨e, he, hquiet⟩ := (Option.any_eq_true _ _).1 hany
  rw [Bool.and_eq_true, beq_iff_eq] at hquiet
  exact ⟨e, hquiet.1, (state_query_agrees (by decide +kernel) he).1 hquiet.1, hquiet.2⟩

/-- A transfer starts and completes. -/
def completedOnce : List Engine.Act :=
  startedOnce ++ [.finish 0 true, .release 0, .announce 0, .detail 0]

theorem state_query_after_completion :
    ∃ e, Engine.init.runs completedOnce = some e ∧ e.quiet = true ∧ e.state = .transferring ∧
      e.lastTold = .completed := by
  have hany : (Engine.init.runs completedOnce).any
      (fun e => e.quiet && e.state == .transferring && e.lastTold == .completed) = true := by
    decide +kernel
  obtain ⟨e, he, hends⟩ := (Option.any_eq_true _ _).1 hany
  simp only [Bool.and_eq_true, beq_iff_eq] at hends
  exact ⟨e, he, hends.1.1, hends.1.2, hends.2⟩

end AetherLink
