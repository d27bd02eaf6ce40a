import AetherLink.Proofs.Observer
import AetherLink.Lib.Tally

set_option autoImplicit false

/-! # What a step does to the sessions

A session lives in the call that has claimed it, then in its task, and its end is told by the task's
reporter or by a `cancel`. `Watched.Move` says once what a step does to these counts. -/

namespace AetherLink

/-- A `cancel` has swapped the flag and will tell the observer. -/
def CallPc.cancels : CallPc → Bool
  | .cancelled => true
  | .tellingCancelled => true
  | _ => false

/-- The reporter has cleared the flag and will tell the observer. -/
def TransferTask.announces (k : TransferTask) : Bool :=
  match k.status with
  | .announcing _ => true
  | _ => false

namespace Watched

/-- Calls and tasks the session lives in. -/
def life (w : Watched) (s : Nat) : Nat :=
  w.callsOf CallPc.holds s + w.tasksOf (fun k _ => k.status.holds) s

/-- Calls and tasks about to tell the session's end. -/
def pending (w : Watched) (s : Nat) : Nat :=
  w.callsOf CallPc.cancels s + w.tasksOf (fun k _ => k.announces) s

/-! ## Counting calls and tasks -/

section

variable {w v : Watched} {i t : Nat}

theorem callsOf_set {pc pc' : CallPc} (hpc : w.engine.calls[i]? = some pc)
    (hcalls : v.engine.calls = w.engine.calls.set i pc')
    (hsession : ∀ j, j ≠ i → v.callSession j = w.callSession j) (p : CallPc → Bool) (s : Nat) :
    v.callsOf p s + (p pc && w.callSession i == s).toNat
      = w.callsOf p s + (p pc' && v.callSession i == s).toNat := by
  rw [callsOf, hcalls]
  exact List.countP_zipIdx_set (p := fun x => p x.1 && w.callSession x.2 == s)
    (q := fun x => p x.1 && v.callSession x.2 == s) hpc pc' fun x j hj => by simp only [hsession j hj]

theorem tasksOf_set {k k' : TransferTask} (hk : w.engine.tasks[t]? = some k)
    (htasks : v.engine.tasks = w.engine.tasks.set t k') (hsession : v.taskSession = w.taskSession)
    (hworking : ∀ u, u ≠ t → v.working u = w.working u) (p : TransferTask → Bool → Bool) (s : Nat) :
    v.tasksOf p s + (p k (w.working t) && w.taskSession t == s).toNat
      = w.tasksOf p s + (p k' (v.working t) && w.taskSession t == s).toNat := by
  rw [tasksOf, htasks]
  have hset := List.countP_zipIdx_set (p := fun x => p x.1 (w.working x.2) && w.taskSession x.2 == s)
    (q := fun x => p x.1 (v.working x.2) && v.taskSession x.2 == s) hk k'
    fun x j hj => by simp only [hworking j hj, hsession]
  rw [hset, hsession]
  rfl

theorem tasksOf_concat {k : TransferTask} (htasks : v.engine.tasks = w.engine.tasks ++ [k])
    (hsession : ∀ u, u ≠ w.engine.tasks.length → v.taskSession u = w.taskSession u)
    (hworking : ∀ u, u ≠ w.engine.tasks.length → v.working u = w.working u)
    (p : TransferTask → Bool → Bool) (s : Nat) :
    v.tasksOf p s = w.tasksOf p s + (p k (v.working w.engine.tasks.length) &&
      v.taskSession w.engine.tasks.length == s).toNat := by
  rw [tasksOf, htasks]
  exact List.countP_zipIdx_concat (p := fun x => p x.1 (w.working x.2) && w.taskSession x.2 == s)
    (q := fun x => p x.1 (v.working x.2) && v.taskSession x.2 == s) k
    fun x j hj => by simp only [hworking j hj, hsession j hj]

/-- A call that keeps its session and counts no more than before. -/
theorem callsOf_le {pc pc' : CallPc} (hpc : w.engine.calls[i]? = some pc)
    (hcalls : v.engine.calls = w.engine.calls.set i pc') (hsession : v.callSession = w.callSession)
    {p : CallPc → Bool} (hp : p pc' = true → p pc = true) (s : Nat) :
    v.callsOf p s ≤ w.callsOf p s := by
  have hset := callsOf_set hpc hcalls (fun j _ => congrFun hsession j) p s
  rw [hsession] at hset
  cases hnew : p pc' with
  | false => simp only [hnew, Bool.false_and, Bool.toNat_false] at hset; omega
  | true => simp only [hnew, hp hnew] at hset; omega

/-- A call that has just been made counts for nothing. -/
theorem callsOf_concat {pc : CallPc} (hcalls : v.engine.calls = w.engine.calls ++ [pc])
    (hsession : v.callSession = w.callSession) {p : CallPc → Bool} (hp : p pc = false) (s : Nat) :
    v.callsOf p s = w.callsOf p s := by
  rw [callsOf, hcalls, hsession]
  have hconcat := List.countP_zipIdx_concat (p := fun x => p x.1 && w.callSession x.2 == s)
    (q := fun x => p x.1 && w.callSession x.2 == s) (l := w.engine.calls) pc fun _ _ _ => rfl
  rw [hconcat, hp]
  rfl

/-- A task that counts no more than before. -/
theorem tasksOf_le {k k' : TransferTask} (hk : w.engine.tasks[t]? = some k)
    (htasks : v.engine.tasks = w.engine.tasks.set t k') (hsession : v.taskSession = w.taskSession)
    (hworking : ∀ u, u ≠ t → v.working u = w.working u) {p : TransferTask → Bool → Bool}
    (hp : p k' (v.working t) = true → p k (w.working t) = true) (s : Nat) :
    v.tasksOf p s ≤ w.tasksOf p s := by
  have hset := tasksOf_set hk htasks hsession hworking p s
  cases hnew : p k' (v.working t) with
  | false => simp only [hnew, Bool.false_and, Bool.toNat_false] at hset; omega
  | true => simp only [hnew, hp hnew] at hset; omega

theorem callsOf_congr (hcalls : v.engine.calls = w.engine.calls)
    (hsession : v.callSession = w.callSession) (p : CallPc → Bool) (s : Nat) :
    v.callsOf p s = w.callsOf p s := by
  rw [callsOf, callsOf, hcalls, hsession]

theorem tasksOf_congr (htasks : v.engine.tasks = w.engine.tasks)
    (hsession : v.taskSession = w.taskSession) (hworking : v.working = w.working)
    (p : TransferTask → Bool → Bool) (s : Nat) : v.tasksOf p s = w.tasksOf p s := by
  rw [tasksOf, tasksOf, htasks, hsession, hworking]

end

/-! ## What a step does to the counts -/

/-- One more for session `s`, if it is `σ`. -/
def one (σ s : Nat) : Nat :=
  (σ == s).toNat

/-- What a step does to the sessions. -/
inductive Move (w : Watched) (a : Act) (w' : Watched) : Prop where
  /-- nothing is claimed, ended or told; the flag may be cleared -/
  | quiet (running : w'.engine.running = true → w.engine.running = true)
      (claimed : w'.claimed = w.claimed) (cancelled : w'.cancelled = w.cancelled)
      (log : w'.log = w.log) (life : ∀ s, w'.life s ≤ w.life s)
      (pending : ∀ s, w'.pending s ≤ w.pending s) (sources : ∀ s, w'.sources s ≤ w.sources s)
  | claim (running : w.engine.running = false) (running' : w'.engine.running = true)
      (claimed : w'.claimed = w.claimed + 1) (cancelled : w'.cancelled = w.cancelled)
      (log : w'.log = w.log) (life : ∀ s, w'.life s ≤ w.life s + one w.claimed s)
      (pending : ∀ s, w'.pending s ≤ w.pending s)
      (sources : ∀ s, w'.sources s ≤ w.sources s + one w.claimed s)
  | cancel (running : w.engine.running = true) (running' : w'.engine.running = false)
      (claimed : w'.claimed = w.claimed) (cancelled : w'.cancelled = w.cancelled ++ [w.claimed - 1])
      (log : w'.log = w.log) (life : ∀ s, w'.life s ≤ w.life s)
      (pending : ∀ s, w'.pending s ≤ w.pending s + one (w.claimed - 1) s)
      (sources : ∀ s, w'.sources s ≤ w.sources s + one (w.claimed - 1) s)
  | release (σ : Nat) (reports : w.reportsCancelled a = w.cancelled.contains σ)
      (running' : w'.engine.running = false) (claimed : w'.claimed = w.claimed)
      (cancelled : w'.cancelled = w.cancelled) (log : w'.log = w.log)
      (life : ∀ s, w'.life s + one σ s ≤ w.life s)
      (pending : ∀ s, w'.pending s ≤ w.pending s + one σ s)
      (sources : ∀ s, w'.sources s ≤ w.sources s)
  | notify (σ : Nat) (note : Note) (notifies : w.notifies a = some σ)
      (running : w'.engine.running = w.engine.running)
      (claimed : w'.claimed = w.claimed) (cancelled : w'.cancelled = w.cancelled)
      (log : w'.log = w.log ++ [(σ, note)]) (source : 0 < w.sources σ)
      (life : ∀ s, w'.life s ≤ w.life s)
      (pending : ∀ s, w'.pending s + (if note.terminal then one σ s else 0) ≤ w.pending s)
      (sources : ∀ s, w'.sources s ≤ w.sources s)

/-- `f` has the tasks of `w`'s engine, but for what has been aborted. -/
def Keeps (w : Watched) (f : Engine) : Prop :=
  ∀ (p : TransferTask → Bool → Bool), (∀ k b, p { k with aborted := true } b = p k b) →
    ∀ s, tasksOf { w with engine := f } p s = w.tasksOf p s

theorem keeps_of_tasks {w : Watched} {f : Engine} (h : f.tasks = w.engine.tasks) : w.Keeps f :=
  fun p _ s => tasksOf_congr (v := { w with engine := f }) h rfl rfl p s

theorem keeps_abort (w : Watched) (t : Nat) : w.Keeps (w.engine.abort t) := by
  intro p hp s
  rw [Engine.abort]
  split
  · rfl
  · next k hk =>
      have hset :=
          tasksOf_set (v := { w with engine := w.engine.setTask t { k with aborted := true } })
        hk rfl rfl (fun _ _ => rfl) p s
      rw [hp] at hset
      exact Nat.add_right_cancel hset

section

variable {w v : Watched} {f : Engine} {i : Nat} {pc pc' : CallPc}

/-- A call that goes on and counts no more than before, while nothing happens to the tasks. -/
theorem counts_goto (hpc : w.engine.calls[i]? = some pc)
    (hengine : v.engine = f.goto i pc') (hcalls : f.calls = w.engine.calls) (htasks : w.Keeps f)
    (hcall : v.callSession = w.callSession) (htask : v.taskSession = w.taskSession)
    (hworking : v.working = w.working)
    (hholds : pc'.holds = true → pc.holds = true) (hcancels : pc'.cancels = true → pc.cancels = true)
    (howes : pc'.owes = true → pc.owes = true) :
    (∀ s, v.life s ≤ w.life s) ∧ (∀ s, v.pending s ≤ w.pending s) ∧
      ∀ s, v.sources s ≤ w.sources s := by
  have hset : v.engine.calls = w.engine.calls.set i pc' := by rw [hengine, Engine.goto, hcalls]
  have htasks' : ∀ (p : TransferTask → Bool → Bool), (∀ k b, p { k with aborted := true } b = p k b) →
      ∀ s, v.tasksOf p s = w.tasksOf p s := by
    intro p hp s
    rw [← htasks p hp s]
    exact tasksOf_congr (w := { w with engine := f }) (by rw [hengine]; rfl) htask hworking p s
  refine ⟨fun s => ?_, fun s => ?_, fun s => ?_⟩
  · rw [life, life, htasks' _ fun _ _ => rfl]
    exact Nat.add_le_add_right (callsOf_le hpc hset hcall hholds s) _
  · rw [pending, pending, htasks' _ fun _ _ => rfl]
    exact Nat.add_le_add_right (callsOf_le hpc hset hcall hcancels s) _
  · rw [sources, sources, htasks' _ fun _ _ => rfl]
    exact Nat.add_le_add_right (callsOf_le hpc hset hcall howes s) _

/-- A call goes on without claiming, ending or telling anything. -/
theorem Move.goto {a : Act} (hpc : w.engine.calls[i]? = some pc) (hcalls : f.calls = w.engine.calls)
    (htasks : w.Keeps f) (hrunning : f.running = true → w.engine.running = true)
    (hholds : pc'.holds = true → pc.holds = true) (hcancels : pc'.cancels = true → pc.cancels = true)
    (howes : pc'.owes = true → pc.owes = true) : Move w a { w with engine := f.goto i pc' } := by
  obtain ⟨hlife, hpending, hsources⟩ := counts_goto (v := { w with engine := f.goto i pc' }) hpc rfl
    hcalls htasks rfl rfl rfl hholds hcancels howes
  exact .quiet hrunning rfl rfl rfl hlife hpending hsources

theorem one_le_of (b : Bool) (σ s : Nat) : (b && σ == s).toNat ≤ one σ s := by
  cases b with
  | false => exact Nat.zero_le _
  | true => exact Nat.le_refl _

/-- A call that counts is a source of its session. -/
theorem sources_pos (hpc : w.engine.calls[i]? = some pc) (howes : pc.owes = true) :
    0 < w.sources (w.callSession i) := by
  refine Nat.add_pos_left (List.countP_pos_iff.2 ⟨(pc, i), ?_, ?_⟩) _
  · exact List.mem_zipIdx_iff_getElem?.2 hpc
  · simp [howes]

end

/-- A start claims the session. -/
theorem Move.claims {w v : Watched} {a : Act} {i : Nat} {host : Bool} {pc : CallPc}
    (hpc : w.engine.calls[i]? = some (.claiming host)) (hfree : w.engine.running = false)
    (hcancels : pc.cancels = false)
    (hv : v = { w with
      engine := ({ w.engine with running := true } : Engine).goto i pc
      claimed := w.claimed + 1
      callSession := Function.update w.callSession i w.claimed }) : Move w a v := by
  have htasks : ∀ p s, v.tasksOf p s = w.tasksOf p s :=
    tasksOf_congr (by rw [hv]; rfl) (by rw [hv]) (by rw [hv])
  have hcalls : ∀ (p : CallPc → Bool), p (.claiming host) = false → ∀ s,
      v.callsOf p s = w.callsOf p s + (p pc && w.claimed == s).toNat := by
    intro p hp s
    have hcalls : v.engine.calls = w.engine.calls.set i pc := by rw [hv]; rfl
    have hset := callsOf_set hpc hcalls
      (fun j hj => by rw [hv]; exact Function.update_of_ne hj _ _) p s
    have hsession : v.callSession i = w.claimed := by rw [hv]; exact Function.update_self _ _ _
    rw [hp, Bool.false_and, Bool.toNat_false, Nat.add_zero, hsession] at hset
    exact hset
  refine .claim hfree (by rw [hv]; rfl) (by rw [hv]) (by rw [hv]) (by rw [hv]) (fun s => ?_)
    (fun s => ?_) (fun s => ?_)
  · have hone := one_le_of pc.holds w.claimed s
    rw [life, life, htasks, hcalls _ rfl]
    omega
  · rw [pending, pending, htasks, hcalls _ rfl, hcancels]
    exact Nat.le_refl _
  · have hone := one_le_of pc.owes w.claimed s
    rw [sources, sources, htasks, hcalls _ rfl]
    omega

/-- A `cancel` ends the session. -/
theorem Move.cancels {w v : Watched} {a : Act} {i : Nat} (hpc : w.engine.calls[i]? = some .clearing)
    (hrunning : w.engine.running = true)
    (hv : v = { w with
      engine := ({ w.engine with running := false } : Engine).goto i .cancelled
      cancelled := w.cancelled ++ [w.claimed - 1]
      callSession := Function.update w.callSession i (w.claimed - 1) }) : Move w a v := by
  have htasks : ∀ p s, v.tasksOf p s = w.tasksOf p s :=
    tasksOf_congr (by rw [hv]; rfl) (by rw [hv]) (by rw [hv])
  have hcalls : ∀ (p : CallPc → Bool), p .clearing = false → ∀ s,
      v.callsOf p s = w.callsOf p s + (p .cancelled && w.claimed - 1 == s).toNat := by
    intro p hp s
    have hset := callsOf_set hpc (v := v) (by rw [hv]; rfl)
      (fun j hj => by rw [hv]; exact Function.update_of_ne hj _ _) p s
    have hsession : v.callSession i = w.claimed - 1 := by rw [hv]; exact Function.update_self _ _ _
    rw [hp, Bool.false_and, Bool.toNat_false, Nat.add_zero, hsession] at hset
    exact hset
  refine .cancel hrunning (by rw [hv]; rfl) (by rw [hv]) (by rw [hv]) (by rw [hv]) (fun s => ?_)
    (fun s => ?_) (fun s => ?_)
  · rw [life, life, htasks, hcalls _ rfl]
    exact Nat.le_refl _
  · have hone := one_le_of CallPc.cancelled.cancels (w.claimed - 1) s
    rw [pending, pending, htasks, hcalls _ rfl]
    omega
  · have hone := one_le_of CallPc.cancelled.owes (w.claimed - 1) s
    rw [sources, sources, htasks, hcalls _ rfl]
    omega

/-- The task takes over from the call that spawns it. -/
theorem Move.spawns {w v : Watched} {a : Act} {i : Nat} (hpc : w.engine.calls[i]? = some .spawning)
    (hv : v = { w with
      engine := ({ w.engine with tasks := w.engine.tasks ++ [⟨.running, false⟩] } : Engine).goto i
        (.storing w.engine.tasks.length)
      taskSession := Function.update w.taskSession w.engine.tasks.length (w.callSession i)
      working := Function.update w.working w.engine.tasks.length true }) : Move w a v := by
  have hcalls : ∀ (p : CallPc → Bool) s, v.callsOf p s + (p .spawning && w.callSession i == s).toNat
      = w.callsOf p s + (p (.storing w.engine.tasks.length) && w.callSession i == s).toNat := by
    intro p s
    have hset := callsOf_set hpc (v := v) (by rw [hv]; rfl) (fun j _ => by rw [hv]) p s
    have hsession : v.callSession i = w.callSession i := by rw [hv]
    rw [hsession] at hset
    exact hset
  have htasks : ∀ (p : TransferTask → Bool → Bool) s, v.tasksOf p s
      = w.tasksOf p s + (p ⟨.running, false⟩ true && w.callSession i == s).toNat := by
    intro p s
    have hconcat := tasksOf_concat (v := v) (k := ⟨.running, false⟩) (by rw [hv]; rfl)
      (fun u hu => by rw [hv]; exact Function.update_of_ne hu _ _)
      (fun u hu => by rw [hv]; exact Function.update_of_ne hu _ _) p s
    have hsession : v.taskSession w.engine.tasks.length = w.callSession i := by
      rw [hv]; exact Function.update_self _ _ _
    have hworking : v.working w.engine.tasks.length = true := by
      rw [hv]; exact Function.update_self _ _ _
    rw [hsession, hworking] at hconcat
    exact hconcat
  refine .quiet (by rw [hv]; exact id) (by rw [hv]) (by rw [hv]) (by rw [hv]) (fun s => ?_)
    (fun s => ?_) (fun s => ?_)
  · have hcall : v.callsOf CallPc.holds s + one (w.callSession i) s = w.callsOf CallPc.holds s :=
      hcalls CallPc.holds s
    have htask : v.tasksOf (fun k _ => k.status.holds) s
        = w.tasksOf (fun k _ => k.status.holds) s + one (w.callSession i) s := htasks _ s
    rw [life, life]
    omega
  · have hcall : v.callsOf CallPc.cancels s = w.callsOf CallPc.cancels s := hcalls CallPc.cancels s
    have htask : v.tasksOf (fun k _ => k.announces) s = w.tasksOf (fun k _ => k.announces) s :=
      htasks _ s
    rw [pending, pending, hcall, htask]
  · have hcall : v.callsOf CallPc.owes s + one (w.callSession i) s = w.callsOf CallPc.owes s :=
      hcalls CallPc.owes s
    have htask : v.tasksOf (fun k working => k.owes || working) s
        = w.tasksOf (fun k working => k.owes || working) s + one (w.callSession i) s := htasks _ s
    rw [sources, sources]
    omega

/-- A call tells the observer a state. -/
theorem Move.tells {w v : Watched} {a : Act} {i : Nat} {pc : CallPc} (pc' : CallPc)
    (state : SessionState)
    (hpc : w.engine.calls[i]? = some pc) (hnotifies : w.notifies a = some (w.callSession i))
    (howes : pc.owes = true) (hholds : pc'.holds = true → pc.holds = true)
    (howes' : pc'.owes = true → pc.owes = true)
    (hcancels : pc'.cancels = false) (hterminal : (Note.state state).terminal = pc.cancels)
    (hv : v = { w.notify (w.callSession i) (.state state) with
      engine := (w.engine.tell state).goto i pc' }) : Move w a v := by
  have hcalls : v.engine.calls = w.engine.calls.set i pc' := by rw [hv]; rfl
  have hsession : v.callSession = w.callSession := by rw [hv]; rfl
  obtain ⟨hlife, -, hsources⟩ := counts_goto (f := w.engine.tell state) hpc (by rw [hv]) rfl
    (keeps_of_tasks rfl) hsession (by rw [hv]; rfl) (by rw [hv]; rfl) hholds
    (fun h => by rw [hcancels] at h; cases h) howes'
  refine .notify (w.callSession i) (.state state) hnotifies (by rw [hv]; rfl) (by rw [hv]; rfl)
    (by rw [hv]; rfl) (by rw [hv]; rfl) (sources_pos hpc howes) hlife (fun s => ?_) hsources
  have htasks : v.tasksOf (fun k _ => k.announces) s = w.tasksOf (fun k _ => k.announces) s :=
    tasksOf_congr (by rw [hv]; rfl) (by rw [hv]; rfl) (by rw [hv]; rfl) _ s
  have hset := callsOf_set hpc hcalls (fun j _ => congrFun hsession j) CallPc.cancels s
  rw [hcancels, Bool.false_and, Bool.toNat_false] at hset
  rw [pending, pending, htasks, hterminal]
  split
  · next hc =>
      rw [hc, Bool.true_and] at hset
      unfold one
      omega
  · omega

theorem call_move {w : Watched} {e : Engine} {i : Nat} {ok : Bool} {pc : CallPc}
    (hpc : w.engine.calls[i]? = some pc) (hmove : Engine.CallMove w.engine i ok pc e) :
    Move w (.engine (.call i ok)) { w.recordCall i pc with engine := e } := by
  have hnotifies : pc.tells.isSome = true →
      w.notifies (.engine (.call i ok)) = some (w.callSession i) := by
    intro htells
    obtain ⟨state, hstate⟩ := Option.isSome_iff_exists.1 htells
    rw [notifies, hpc, Option.bind_some, hstate, Option.map_some]
  cases hmove with
  | busy host hset =>
      rw [recordCall, if_pos hset]
      exact .goto hpc rfl (keeps_of_tasks rfl) id id id id
  | claims host hfree =>
      refine .claims hpc hfree ?_ (by rw [recordCall, hfree]; rfl)
      cases host <;> rfl
  | releases =>
      exact .goto (f := { w.engine with running := false }) hpc rfl (keeps_of_tasks rfl)
        (fun h => by cases h) (fun h => by cases h) (fun h => by cases h) (fun h => by cases h)
  | stores host | storesCancelled =>
      exact .goto (f := w.engine.store _) hpc rfl (keeps_of_tasks rfl) id id id id
  | tells host =>
      exact .tells .spawning (Engine.startState host) hpc (hnotifies rfl) rfl id id rfl
        (by cases host <;> rfl) rfl
  | spawns => exact .spawns hpc rfl
  | started t =>
      exact .goto (f := { w.engine with task := some t }) hpc rfl (keeps_of_tasks rfl) id id id id
  | takes t =>
      exact .goto (f := { w.engine with task := none }) hpc rfl (keeps_of_tasks rfl) id id id id
  | aborts t =>
      exact .goto (f := w.engine.abort t) hpc (w.engine.abort_calls t) (w.keeps_abort t)
        (fun h => by rwa [Engine.abort_running] at h) id id id
  | clears hset => exact .cancels hpc hset (by rw [recordCall, if_pos hset])
  | nothingToClear hfree =>
      rw [recordCall, hfree]
      exact .goto hpc rfl (keeps_of_tasks rfl) id id id id
  | tellsCancelled =>
      exact .tells (.returned (.ok ())) .cancelled hpc (hnotifies rfl) rfl id (fun h => by cases h)
        rfl rfl rfl
  | _ =>
      exact .goto hpc rfl (keeps_of_tasks rfl) id (by simp [CallPc.holds]) id
        (by simp [CallPc.owes, CallPc.holds])

section

variable {w v : Watched} {f : Engine} {t : Nat} {k k' : TransferTask}

/-- A task that goes on and counts no more than before. -/
theorem counts_setTask (hk : w.engine.tasks[t]? = some k) (hengine : v.engine = f.setTask t k')
    (hcalls : f.calls = w.engine.calls) (htasks : f.tasks = w.engine.tasks)
    (hcall : v.callSession = w.callSession) (htask : v.taskSession = w.taskSession)
    (hworking : ∀ u, u ≠ t → v.working u = w.working u)
    (hholds : k'.status.holds = true → k.status.holds = true)
    (howes : (k'.owes || v.working t) = true → (k.owes || w.working t) = true) :
    (∀ s, v.life s ≤ w.life s) ∧ ∀ s, v.sources s ≤ w.sources s := by
  have hset : v.engine.tasks = w.engine.tasks.set t k' := by rw [hengine, Engine.setTask, htasks]
  have hcalls' : ∀ p s, v.callsOf p s = w.callsOf p s :=
    callsOf_congr (by rw [hengine, Engine.setTask, hcalls]) hcall
  refine ⟨fun s => ?_, fun s => ?_⟩
  · rw [life, life, hcalls']
    exact Nat.add_le_add_left (tasksOf_le hk hset htask hworking hholds s) _
  · rw [sources, sources, hcalls']
    exact Nat.add_le_add_left (tasksOf_le hk hset htask hworking
      (p := fun k working => k.owes || working) howes s) _

/-- What the task's place among those that tell their end is exchanged for. -/
theorem pending_setTask (hk : w.engine.tasks[t]? = some k) (hengine : v.engine = f.setTask t k')
    (hcalls : f.calls = w.engine.calls) (htasks : f.tasks = w.engine.tasks)
    (hcall : v.callSession = w.callSession) (htask : v.taskSession = w.taskSession)
    (hworking : ∀ u, u ≠ t → v.working u = w.working u) (s : Nat) :
    v.pending s + (k.announces && w.taskSession t == s).toNat
      = w.pending s + (k'.announces && w.taskSession t == s).toNat := by
  have hset : v.engine.tasks = w.engine.tasks.set t k' := by rw [hengine, Engine.setTask, htasks]
  have hcalls' : ∀ p s, v.callsOf p s = w.callsOf p s :=
    callsOf_congr (by rw [hengine, Engine.setTask, hcalls]) hcall
  have htasks' := tasksOf_set hk hset htask hworking (fun k _ => k.announces) s
  rw [pending, pending, hcalls']
  omega

/-- A task that has not ended, or has workers at work, is a source of its session. -/
theorem sources_pos_task (hk : w.engine.tasks[t]? = some k)
    (howes : (k.owes || w.working t) = true) : 0 < w.sources (w.taskSession t) := by
  refine Nat.add_pos_right _ (List.countP_pos_iff.2 ⟨(k, t), ?_, ?_⟩)
  · exact List.mem_zipIdx_iff_getElem?.2 hk
  · simp only [howes, Bool.true_and, beq_self_eq_true]

/-- Workers may stop. -/
theorem tasksOf_mono (htasks : v.engine.tasks = w.engine.tasks)
    (hsession : v.taskSession = w.taskSession) {p : TransferTask → Bool → Bool}
    (hp : ∀ k u, p k (v.working u) = true → p k (w.working u) = true) (s : Nat) :
    v.tasksOf p s ≤ w.tasksOf p s := by
  rw [tasksOf, tasksOf, htasks, hsession]
  refine List.countP_mono_left fun x _ hx => ?_
  rw [Bool.and_eq_true] at hx ⊢
  exact ⟨hp x.1 x.2 hx.1, hx.2⟩

end

/-- A worker notifies. -/
theorem Move.works {w : Watched} {a : Act} {t : Nat} {note : Note} (hworks : w.works t = true)
    (hnotifies : w.notifies a = some (w.taskSession t)) (hterminal : note.terminal = false) :
    Move w a (w.notify (w.taskSession t) note) := by
  rw [Watched.works, Bool.and_eq_true, decide_eq_true_eq] at hworks
  have hsource : 0 < w.sources (w.taskSession t) :=
    sources_pos_task (List.getElem?_eq_getElem hworks.1) (by simp [hworks.2])
  refine .notify (w.taskSession t) note hnotifies rfl rfl rfl rfl hsource (fun _ => Nat.le_refl _)
    (fun s => ?_) fun _ => Nat.le_refl _
  rw [hterminal]
  exact Nat.le_refl _

/-- A task goes on, or ends without a word. -/
theorem Move.task {w v : Watched} {a : Act} {t : Nat} {k k' : TransferTask}
    (hk : w.engine.tasks[t]? = some k) (hengine : v.engine = w.engine.setTask t k')
    (hv : v = { w with engine := v.engine, working := v.working })
    (hworking : ∀ u, u ≠ t → v.working u = w.working u)
    (hholds : k'.status.holds = true → k.status.holds = true)
    (howes : (k'.owes || v.working t) = true → (k.owes || w.working t) = true)
    (hannounces : k'.announces = false) : Move w a v := by
  have hcall : v.callSession = w.callSession := by rw [hv]
  have htask : v.taskSession = w.taskSession := by rw [hv]
  obtain ⟨hlife, hsources⟩ :=
    counts_setTask hk hengine rfl rfl hcall htask hworking hholds howes
  refine .quiet (by rw [hengine]; exact id) (by rw [hv]) (by rw [hv]) (by rw [hv]) hlife (fun s => ?_)
    hsources
  have hpending := pending_setTask hk hengine rfl rfl hcall htask hworking s
  rw [hannounces, Bool.false_and, Bool.toNat_false] at hpending
  omega

/-- A reporter clears the flag. -/
theorem Move.releases {w : Watched} {t : Nat} {ok aborted : Bool}
    (hk : w.engine.tasks[t]? = some ⟨.reporting ok, aborted⟩) :
    Move w (.engine (.release t)) { w with
      engine := ({ w.engine with running := false } : Engine).setTask t ⟨.announcing ok, aborted⟩ } := by
  obtain ⟨v, hv⟩ : ∃ v : Watched, v = { w with
      engine := ({ w.engine with running := false } : Engine).setTask t
        ⟨.announcing ok, aborted⟩ } := ⟨_, rfl⟩
  rw [← hv]
  have hengine : v.engine = ({ w.engine with running := false } : Engine).setTask t
      ⟨.announcing ok, aborted⟩ := by rw [hv]
  have hcall : v.callSession = w.callSession := by rw [hv]
  have htask : v.taskSession = w.taskSession := by rw [hv]
  have hworking : ∀ u, u ≠ t → v.working u = w.working u := fun _ _ => by rw [hv]
  have hsources := (counts_setTask hk hengine rfl rfl hcall htask hworking
    (fun h => by cases h) fun _ => rfl).2
  refine .release (w.taskSession t) rfl (by rw [hengine]; rfl) (by rw [hv]) (by rw [hv]) (by rw [hv])
    (fun s => ?_) (fun s => ?_) hsources
  · have hcalls : v.callsOf CallPc.holds s = w.callsOf CallPc.holds s :=
      callsOf_congr (by rw [hengine]; rfl) hcall _ s
    have hlist : v.engine.tasks = w.engine.tasks.set t ⟨.announcing ok, aborted⟩ := by
      rw [hengine]
      rfl
    have hset : v.tasksOf (fun k _ => k.status.holds) s + one (w.taskSession t) s
        = w.tasksOf (fun k _ => k.status.holds) s :=
      tasksOf_set hk hlist htask hworking (fun k _ => k.status.holds) s
    rw [life, life]
    omega
  · have hpending : v.pending s = w.pending s + one (w.taskSession t) s :=
      pending_setTask hk hengine rfl rfl hcall htask hworking s
    omega

/-- A reporter tells the observer. -/
theorem Move.reports {w v : Watched} {a : Act} {f : Engine} {t : Nat} {k : TransferTask}
    (k' : TransferTask)
    (note : Note) (hk : w.engine.tasks[t]? = some k)
    (hnotifies : w.notifies a = some (w.taskSession t))
    (hcalls : f.calls = w.engine.calls) (htasks : f.tasks = w.engine.tasks)
    (hrunning : f.running = w.engine.running)
    (hv : v = { w.notify (w.taskSession t) note with engine := f.setTask t k' })
    (howes : k.owes = true) (hholds : k'.status.holds = false) (hannounces : k'.announces = false)
    (hterminal : note.terminal = k.announces) : Move w a v := by
  have hengine : v.engine = f.setTask t k' := by rw [hv]
  have hcall : v.callSession = w.callSession := by rw [hv]; rfl
  have htask : v.taskSession = w.taskSession := by rw [hv]; rfl
  have hworking : ∀ u, u ≠ t → v.working u = w.working u := fun _ _ => by rw [hv]; rfl
  obtain ⟨hlife, hsources⟩ := counts_setTask hk hengine hcalls htasks hcall htask hworking
    (fun h => by rw [hholds] at h; cases h) fun _ => by rw [howes, Bool.true_or]
  refine .notify (w.taskSession t) note hnotifies (by rw [hengine]; exact hrunning) (by rw [hv]; rfl)
    (by rw [hv]; rfl) (by rw [hv]; rfl) (sources_pos_task hk (by rw [howes, Bool.true_or])) hlife
    (fun s => ?_) hsources
  have hpending := pending_setTask hk hengine hcalls htasks hcall htask hworking s
  rw [hannounces, Bool.false_and, Bool.toNat_false] at hpending
  rw [hterminal]
  split
  · next hk' =>
      rw [hk', Bool.true_and] at hpending
      unfold one
      omega
  · omega

theorem step_engine_move {w : Watched} {a : Engine.Act} {e : Engine}
    (hstep : w.engine.step a = some e) :
    Move w (.engine a) { w.record a with engine := e } := by
  cases Engine.step_moves hstep with
  | enters call =>
      have hcalls : ∀ (p : CallPc → Bool), p (Engine.entry call) = false → ∀ s, callsOf { w with
          engine := { w.engine with calls := w.engine.calls ++ [Engine.entry call] } } p s
            = w.callsOf p s :=
        fun p hp s => callsOf_concat (v := { w with
          engine := { w.engine with calls := w.engine.calls ++ [Engine.entry call] } }) rfl rfl hp s
      refine .quiet id rfl rfl rfl (fun s => Nat.le_of_eq ?_) (fun s => Nat.le_of_eq ?_)
        (fun s => Nat.le_of_eq ?_)
      · exact congrArg (· + _) (hcalls CallPc.holds (by cases call <;> rfl) s)
      · exact congrArg (· + _) (hcalls CallPc.cancels (by cases call <;> rfl) s)
      · exact congrArg (· + _) (hcalls CallPc.owes (by cases call <;> rfl) s)
  | calls hpc hmove =>
      rw [record, hpc]
      exact call_move hpc hmove
  | finishes ok hk =>
      cases ok with
      | false => exact .task hk rfl rfl (fun _ _ => rfl) id (fun _ => rfl) rfl
      | true =>
          exact .task hk rfl rfl (fun u hu => Function.update_of_ne hu _ _) id (fun _ => rfl) rfl
  | drops hk => exact .task hk rfl rfl (fun _ _ => rfl) (fun h => by cases h) (fun _ => rfl) rfl
  | releases hk => exact .releases hk
  | @announces t ok aborted hk =>
      refine .reports (f := w.engine.tell (Engine.endState ok)) ⟨.detailing ok, aborted⟩
        (.state (Engine.endState ok)) hk rfl rfl rfl rfl ?_ rfl rfl rfl ?_
      · rw [record, hk]
      · cases ok <;> rfl
  | @details t ok aborted hk =>
      refine .reports (f := w.engine) ⟨.gone, aborted⟩ (if ok then .finished else .error) hk
        rfl rfl rfl rfl ?_ rfl rfl rfl ?_
      · rw [record, hk]
      · cases ok <;> rfl

/-- **What a step does.** -/
theorem step_move {w w' : Watched} {a : Act} (hstep : w.step a = some w') : Move w a w' := by
  cases a with
  | engine a =>
      obtain ⟨e, he, rfl⟩ := Option.map_eq_some_iff.1 hstep
      exact step_engine_move he
  | progress t =>
      simp only [step] at hstep
      split at hstep
      · next hworks =>
          obtain rfl := Option.some.inj hstep
          exact .works hworks rfl rfl
      · cases hstep
  | fileCompleted t =>
      simp only [step] at hstep
      split at hstep
      · next hworks =>
          obtain rfl := Option.some.inj hstep
          exact .works hworks rfl rfl
      · cases hstep
  | rest t =>
      obtain rfl := Option.some.inj hstep
      have hworking : ∀ u, Function.update w.working t false u = true → w.working u = true := by
        intro u hu
        by_cases heq : u = t
        · rw [heq, Function.update_self] at hu
          cases hu
        · rwa [Function.update_of_ne heq] at hu
      refine .quiet id rfl rfl rfl (fun _ => Nat.le_refl _) (fun _ => Nat.le_refl _) fun s => ?_
      refine Nat.add_le_add_left (tasksOf_mono
        (w := w) (v := { w with working := Function.update w.working t false })
        (p := fun k working => k.owes || working) rfl rfl (fun k u hu => ?_) s) _
      rw [Bool.or_eq_true] at hu ⊢
      exact hu.imp_right (hworking u)

end Watched

end AetherLink
